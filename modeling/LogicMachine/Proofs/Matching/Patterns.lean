import LogicMachine.Proofs.Matching.ReadMode

/-!
# Matching all of a head

A compound is built if its subject is a variable that is not bound, and compared
otherwise.  Both pieces of code leave the same slots kept, so the compounds that
were put off can be matched without knowing which was run.
-/

namespace LogicMachine

namespace Scene

variable {scene : Scene} {view : View} {cells : Set Address}
  {named queue : List Keep} {waiting : List Demand} {word : Word}
  {address : Address} {term : Term} {source : Source}
  {subject cursor : Local} {position : Nat} {draft after : Draft}

/-- The code that matches a compound. -/
theorem matchCompound {functor : Option Functor} {id : Option FunctorId}
    {args : List Term} {slots : List Slot} {read fail done : Label}
    (planned : Slot.PlannedAll scene.naming draft args slots after)
    (holds : scene.Holds position
      (Pattern.matchCompound source subject cursor id slots read fail done))
    (fits : after.assembler.locals ≤ scene.count)
    (works : draft.working = some (subject, cursor))
    (stage : scene.Stage draft view cells named queue
      (⟨word, .takes term⟩ :: waiting))
    (decided : Shape.of term = .ok (.compound functor args))
    (numbered : functor.map scene.naming.number? = id.map some)
    (finds : source.Finds scene.table view cells address word)
    (different : ∀ slot, source = .slot slot → slot.index ≠ subject.index)
    (next : ∀ later larger others added,
      scene.Stage after later larger others (queue ++ added) waiting →
      List.Forall₂ Keep.Serves added (ClauseM.postponed slots) →
      scene.Ensures
        (position + textSize (Pattern.matchCompound source subject cursor id
          slots read fail done)) later) :
    scene.Ensures position view := by
  have last : (Pattern.matchCompound source subject cursor id slots read fail
      done).getLast? = some (.mark done) := by
    rw [Pattern.matchCompound, List.getLast?_append]
    rfl
  rw [← place_last holds last] at next
  have split : Pattern.matchCompound source subject cursor id slots read fail
        done =
      Pattern.takeSubject source subject ++
        (Pattern.compareTag subject .reference ++
          .branch .branchNotEqual read ::
            (Pattern.writeCompound subject cursor id slots ++
              .branch .branchAlways done :: .mark read ::
                (Pattern.readCompound subject cursor id slots fail ++
                  .branch .branchAlways done :: .mark fail ::
                    [.plain .fail, .mark done]))) := by
    simp [Pattern.matchCompound]
  rw [split, holds_append] at holds
  obtain ⟨taking, testing⟩ := holds
  obtain ⟨writing, leaving⟩ :=
    holds_append.mp (holds_branch (holds_append.mp testing).2)
  obtain ⟨reads, others⟩ := holds_mark (holds_branch leaving)
  obtain ⟨reading, ending⟩ := holds_append.mp others
  obtain ⟨fails, failing⟩ := holds_mark (holds_branch ending)
  obtain ⟨arranged, ready⟩ := stage
  have isSubject := Nat.lt_of_lt_of_le (arranged.lays.working _ _ works).1
    (Nat.le_trans planned.reserves.locals fits)
  apply takeSubject taking ready finds isSubject (arranged.ne_subject works)
    different
  intro root content later rooted
  have there : (view.setLocal subject.index (.address root)).locals[
      subject.index]? = some (.address root) := by
    apply View.locals_setLocal_self
    rw [ready.length]
    exact isSubject
  apply testTag testing isSubject there rooted.loads
  · intro isReference
    obtain ⟨decoded, member⟩ := rooted.isFree isReference
    have isRoot : Store.RootAt view.memory cells root content :=
      ⟨member, rooted.found later.terms member,
        fun next refers => (rooted.free next refers).1⟩
    refine writeCompound planned writing fits works ⟨arranged, later⟩ decided
      numbered there isRoot decoded fun final larger others added reached serves =>
        ?_
    exact jump leaving (next final larger others added reached serves)
  · intro notReference
    rw [reads]
    refine readCompound planned reading ?_ fits works ⟨arranged, later⟩ decided
      numbered there rooted.loads (View.Rooted.isBound notReference)
      fun final larger others added reached serves => ?_
    · rw [fails]
      exact (@holds_append _ _ [_] _ |>.mp failing).1
    · exact jump ending (next final larger others added reached serves)

/-- The code of a pattern, with the slots that were planned for it. -/
theorem matchPattern {pattern : Pattern} {text : List Item}
    {inner : List Pattern}
    (matched : ClauseM.Matches scene.naming draft pattern text inner after)
    (holds : scene.Holds position text)
    (fits : after.assembler.locals ≤ scene.count)
    (stage : scene.Stage draft view cells named queue
      (⟨word, .takes term⟩ :: waiting))
    (decided : Shape.of term = .ok (.compound pattern.functor pattern.args))
    (finds : pattern.source.Finds scene.table view cells address word)
    (different : ∀ slot, pattern.source = .slot slot →
      slot.index ≠ matched.subject.index)
    (next : ∀ later larger others added,
      scene.Stage after later larger others (queue ++ added) waiting →
      List.Forall₂ Keep.Serves added inner →
      scene.Ensures (position + textSize text) later) :
    scene.Ensures position view := by
  obtain ⟨subject, cursor, ready, slots, reserved, id, works, planned, numbered,
    rfl, rfl, rfl⟩ := matched
  rw [Draft.locals_emitted] at fits
  obtain ⟨arranged, known⟩ := stage.arranged.works works
  refine matchCompound planned holds fits known ⟨arranged, stage.ready⟩ decided
    numbered finds different fun later larger others added reached serves => ?_
  exact next later larger others added
    ⟨reached.arranged.withLabel.withLabel.withLabel.emitted _, reached.ready⟩
    serves

/-- The code of one argument. -/
theorem matchArgument {index : Nat} {text : List Item} {inner : List Pattern}
    (matched : ClauseM.MatchesArgument scene.naming draft index term text inner
      after)
    (holds : scene.Holds position text)
    (fits : after.assembler.locals ≤ scene.count)
    (stage : scene.Stage draft view cells named queue
      (⟨word, .takes term⟩ :: waiting))
    (finds : (Source.argument index).Finds scene.table view cells address word)
    (next : ∀ later larger others added,
      scene.Stage after later larger others (queue ++ added) waiting →
      List.Forall₂ Keep.Serves added inner →
      scene.Ensures (position + textSize text) later) :
    scene.Ensures position view := by
  cases matched with
  | void =>
      refine next view cells named [] (.unchanged stage.arranged ?_) .nil
      refine stage.ready.met (fun _ => False.elim) fun T _ value bound respects => ?_
      have isTerm := stage.ready.awaited _ List.mem_cons_self word
        List.mem_cons_self
      obtain ⟨tree, denotes⟩ := isTerm.formed.denotes value
      exact ⟨tree, denotes, .inl rfl⟩
  | @first name isNamed unknown =>
      obtain ⟨arranged, ready⟩ := stage
      refine takeVariable holds ready finds fits arranged.ne_next
        fun content settled => ?_
      exact next _ _ (⟨draft.nextLocal.index, content, .var name⟩ :: named) []
        (.unchanged ((arranged.withVariable isNamed unknown content).emitted _)
          settled) .nil
  | @again name place isNamed known =>
      obtain ⟨arranged, ready⟩ := stage
      obtain ⟨content, isKept⟩ := arranged.lookup known
      refine unifyValue holds ready finds isNamed isKept
        (Nat.lt_of_lt_of_le (arranged.inside isKept) fits)
        fun larger memory _ settled => ?_
      exact next _ _ named [] (.unchanged (arranged.emitted _) settled) .nil
  | @constant _ functor id subject cursor ready decided known works =>
      obtain ⟨arranged, working⟩ := stage.arranged.works works
      have isSubject := (arranged.lays.working _ _ working).1
      rw [Draft.locals_emitted] at fits
      refine matchConstant holds stage.ready finds decided known
        (Nat.lt_of_lt_of_le isSubject fits) (arranged.ne_subject working) nofun
        fun root memory settled => ?_
      exact next _ _ named []
        (.unchanged (arranged.withLabel.withLabel.emitted _) settled) .nil
  | compound decided matched =>
      obtain ⟨matched⟩ := matched
      exact matchPattern matched holds fits stage decided finds nofun next

end Scene

/-! ## The text of a head -/

namespace ClauseM

/-- The text that matches the arguments of the head from a given one on. -/
inductive MatchesArguments (naming : Naming) :
    Draft → Nat → List Term → List Item → List Pattern → Draft → Prop where
  | nil {draft index} : MatchesArguments naming draft index [] [] [] draft
  | cons {draft index term text inner middle terms more others after} :
      MatchesArgument naming draft index term text inner middle →
      MatchesArguments naming middle (index + 1) terms more others after →
      MatchesArguments naming draft index (term :: terms) (text ++ more)
        (inner ++ others) after

/-- The text that matches the compounds that were put off. -/
inductive MatchesPostponed (naming : Naming) :
    Draft → List Pattern → List Item → Draft → Prop where
  | nil {draft} : MatchesPostponed naming draft [] [] draft
  | cons {draft pattern text inner middle patterns more after} :
      Nonempty (Matches naming draft pattern text inner middle) →
      MatchesPostponed naming middle (patterns ++ inner) more after →
      MatchesPostponed naming draft (pattern :: patterns) (text ++ more) after

/-- The text that matches a head. -/
inductive MatchesHead (naming : Naming) (draft : Draft) (head : Goal) :
    List Item → Draft → Prop where
  | intro {text inner middle more after} :
      MatchesArguments naming draft 0 head.args text inner middle →
      MatchesPostponed naming middle inner more after →
      MatchesHead naming draft head (text ++ more) after

variable {naming : Naming} {draft after : Draft}

/-! Slots that were given out are not taken back. -/

theorem Matches.locals_mono {pattern : Pattern} {text : List Item}
    {inner : List Pattern}
    (matched : Matches naming draft pattern text inner after) :
    draft.assembler.locals ≤ after.assembler.locals := by
  obtain ⟨subject, cursor, ready, slots, reserved, id, works, planned, -, rfl,
    rfl, rfl⟩ := matched
  rw [Draft.locals_emitted]
  exact Nat.le_trans works.reserves.locals planned.reserves.locals

theorem MatchesArgument.locals_mono {index : Nat} {term : Term}
    {text : List Item} {inner : List Pattern}
    (matched : MatchesArgument naming draft index term text inner after) :
    draft.assembler.locals ≤ after.assembler.locals := by
  cases matched with
  | void => exact Nat.le_refl _
  | first =>
      rw [Draft.locals_emitted]
      exact Nat.le_succ _
  | again =>
      rw [Draft.locals_emitted]
  | constant _ _ works =>
      rw [Draft.locals_emitted]
      exact works.reserves.locals
  | compound _ matched =>
      obtain ⟨matched⟩ := matched
      exact matched.locals_mono

theorem MatchesArguments.locals_mono {index : Nat} {terms : List Term}
    {text : List Item} {inner : List Pattern}
    (matched : MatchesArguments naming draft index terms text inner after) :
    draft.assembler.locals ≤ after.assembler.locals := by
  induction matched with
  | nil => exact Nat.le_refl _
  | cons first _ ih => exact Nat.le_trans first.locals_mono ih

theorem MatchesPostponed.locals_mono {patterns : List Pattern}
    {text : List Item}
    (matched : MatchesPostponed naming draft patterns text after) :
    draft.assembler.locals ≤ after.assembler.locals := by
  induction matched with
  | nil => exact Nat.le_refl _
  | cons first _ ih =>
      obtain ⟨first⟩ := first
      exact Nat.le_trans first.locals_mono ih

theorem MatchesHead.locals_mono {head : Goal} {text : List Item}
    (matched : MatchesHead naming draft head text after) :
    draft.assembler.locals ≤ after.assembler.locals := by
  obtain ⟨first, second⟩ := matched
  exact Nat.le_trans first.locals_mono second.locals_mono

theorem matchArguments_matches (index : Nat) (terms : List Term) :
    Plans (matchArguments index terms) draft naming False
      (fun inner after => ∃ text,
        MatchesArguments naming draft index terms text inner after) := by
  induction terms generalizing draft index with
  | nil => exact ⟨[], .nil⟩
  | cons term rest ih =>
      refine ((matchArgument_plans index term).imp False.elim
        fun _ _ => id).bind ?_
      rintro first middle ⟨text, matched⟩
      refine (ih (index + 1)).bind ?_
      rintro others after ⟨more, later⟩
      exact ⟨text ++ more, .cons matched later⟩

theorem matchPostponed_matches (count : Nat) (patterns : List Pattern) :
    Plans (matchPostponed count patterns) draft naming False
      (fun _ after => ∃ text,
        MatchesPostponed naming draft patterns text after) := by
  induction count generalizing draft patterns with
  | zero =>
      cases patterns with
      | nil => exact ⟨[], .nil⟩
      | cons pattern rest => exact fun _ => id
  | succ count ih =>
      cases patterns with
      | nil => exact ⟨[], .nil⟩
      | cons pattern rest =>
          refine ((matchPattern_plans pattern).imp False.elim
            fun _ _ => id).bind ?_
          rintro inner middle ⟨text, matched⟩
          refine (ih (rest ++ inner)).imp id ?_
          rintro _ after ⟨more, later⟩
          exact ⟨text ++ more, .cons matched later⟩

theorem compileHead_matches (head : Goal) :
    Plans (compileHead head) draft naming False
      (fun _ after => ∃ text, MatchesHead naming draft head text after) := by
  apply (matchArguments_matches 0 head.args).bind
  rintro patterns middle ⟨text, matched⟩
  refine (matchPostponed_matches _ patterns).imp id ?_
  rintro _ after ⟨more, later⟩
  exact ⟨text ++ more, .intro matched later⟩

theorem MatchesArguments.writes {index : Nat} {terms : List Term}
    {text : List Item} {inner : List Pattern}
    (matched : MatchesArguments naming draft index terms text inner after) :
    ∃ bound, draft.Writes bound text after := by
  induction matched with
  | nil => exact ⟨0, .nil _⟩
  | cons first _ ih =>
      obtain ⟨bound, writes, -⟩ := first.writes
      obtain ⟨more, later⟩ := ih
      exact ⟨bound + more, writes.append later⟩

theorem MatchesPostponed.writes {patterns : List Pattern} {text : List Item}
    (matched : MatchesPostponed naming draft patterns text after) :
    ∃ bound, draft.Writes bound text after := by
  induction matched with
  | nil => exact ⟨0, .nil _⟩
  | cons first _ ih =>
      obtain ⟨first⟩ := first
      obtain ⟨bound, writes, -⟩ := first.writes
      obtain ⟨more, later⟩ := ih
      exact ⟨bound + more, writes.append later⟩

theorem MatchesHead.writes {head : Goal} {text : List Item}
    (matched : MatchesHead naming draft head text after) :
    ∃ bound, draft.Writes bound text after := by
  obtain ⟨first, second⟩ := matched
  obtain ⟨bound, writes⟩ := first.writes
  obtain ⟨more, later⟩ := second.writes
  exact ⟨bound + more, writes.append later⟩

end ClauseM

/-! ## Running the text of a head -/

/-- The words have to be what the terms say. -/
def Demand.each (words : List Word) (terms : List Term) : List Demand :=
  List.zipWith (fun word term => ⟨word, .takes term⟩) words terms

namespace Scene

variable {scene : Scene} {view : View} {cells : Set Address}
  {named queue : List Keep} {position : Nat} {draft after : Draft}
  {waiting : List Demand}

/-- The words are those of the arguments from a given one on. -/
def Offers (scene : Scene) (index : Nat) (words : List Word) : Prop :=
  ∀ offset word, words[offset]? = some word →
    index + offset + 3 ≤ scene.below.length ∧
      scene.below[scene.below.length - 3 - (index + offset)]? = some word

theorem Offers.tail {index : Nat} {word : Word} {words : List Word}
    (offers : scene.Offers index (word :: words)) :
    scene.Offers (index + 1) words := by
  intro offset other found
  rw [Nat.add_assoc index, Nat.add_comm 1]
  exact offers (offset + 1) other found

theorem Offers.finds {index : Nat} {word : Word} {words : List Word}
    (offers : scene.Offers index (word :: words)) (sane : view.Sane)
    (below : view.below = scene.below)
    (isTerm : word.IsTerm scene.table view.memory cells) :
    (Source.argument index).Finds scene.table view cells (view.argument index)
      word := by
  obtain ⟨inside, found⟩ := offers 0 word rfl
  rw [Nat.add_zero, ← below] at inside found
  have limit := sane.stack
  simp only [View.stack, View.frame, List.length_append] at limit
  exact .argument inside (by omega) found isTerm

/-- The code of the arguments from a given one on. -/
theorem matchArguments {index : Nat} {terms : List Term} {words : List Word}
    {text : List Item} {inner : List Pattern}
    (matched : ClauseM.MatchesArguments scene.naming draft index terms text
      inner after)
    (holds : scene.Holds position text)
    (fits : after.assembler.locals ≤ scene.count)
    (length : words.length = terms.length)
    (offers : scene.Offers index words)
    (stage : scene.Stage draft view cells named queue
      (Demand.each words terms ++ waiting))
    (next : ∀ later larger others added,
      scene.Stage after later larger others (queue ++ added) waiting →
      List.Forall₂ Keep.Serves added inner →
      scene.Ensures (position + textSize text) later) :
    scene.Ensures position view := by
  induction matched generalizing position view cells named queue words with
  | nil =>
      cases List.length_eq_zero_iff.mp length
      exact next view cells named [] (.unchanged stage.arranged stage.ready) .nil
  | @cons draft index term text inner middle terms more others after first rest
      ih =>
      cases words with
      | nil => cases length
      | cons word words =>
          apply Context.Ensures.of_sane
          intro sane
          rw [holds_append] at holds
          rw [textSize_append, ← Nat.add_assoc] at next
          have isTerm := stage.ready.awaited _ List.mem_cons_self word
            List.mem_cons_self
          refine matchArgument first holds.1
            (Nat.le_trans rest.locals_mono fits) stage
            (offers.finds sane stage.ready.below isTerm)
            fun later larger names added reached serves => ?_
          refine ih holds.2 fits (Nat.succ.inj length) offers.tail reached
            fun final all last extra ending serving => ?_
          rw [List.append_assoc] at ending
          exact next final all last (added ++ extra) ending
            (List.rel_append serves serving)

/-- The code of the compounds that were put off. -/
theorem matchPostponed {patterns : List Pattern} {text : List Item}
    (matched : ClauseM.MatchesPostponed scene.naming draft patterns text after)
    (holds : scene.Holds position text)
    (fits : after.assembler.locals ≤ scene.count)
    (serves : List.Forall₂ Keep.Serves queue patterns)
    (stage : scene.Stage draft view cells named queue [])
    (next : ∀ later larger others,
      scene.Stage after later larger others [] [] →
      scene.Ensures (position + textSize text) later) :
    scene.Ensures position view := by
  induction matched generalizing position view cells named queue with
  | nil =>
      cases serves
      exact next view cells named stage
  | @cons draft pattern text inner middle patterns more after first rest ih =>
      obtain ⟨first⟩ := first
      cases serves with
      | @cons keep _ queue _ serving others =>
          rw [holds_append] at holds
          rw [textSize_append, ← Nat.add_assoc] at next
          obtain ⟨isSource, decided⟩ := serving
          obtain ⟨stored, isTerm⟩ := stage.ready.stored keep (by simp)
          have upto := Nat.le_trans rest.locals_mono fits
          have inside := Nat.lt_of_lt_of_le
            (stage.arranged.inside (by simp : keep ∈ named ++ keep :: queue))
            (Nat.le_trans first.locals_mono upto)
          have finds : pattern.source.Finds scene.table view cells
              (view.slot keep.place) keep.word := by
            rw [isSource]
            exact .slot (small inside) stored isTerm
          have different : ∀ slot, pattern.source = .slot slot →
              slot.index ≠ first.subject.index := by
            intro slot same
            rw [isSource] at same
            cases same
            obtain ⟨arranged, working⟩ := stage.arranged.works first.works
            exact arranged.ne_subject working keep (by simp)
          have called : scene.Stage draft view cells named queue
              [⟨keep.word, .takes keep.term⟩] :=
            ⟨stage.arranged.tail, stage.ready.called⟩
          refine matchPattern first holds.1 upto called decided finds different
            fun later larger names added reached new => ?_
          exact ih holds.2 fits (List.rel_append others new) reached next

/-- The code of a head. -/
theorem matchHead {head : Goal} {words : List Word} {text : List Item}
    (matched : ClauseM.MatchesHead scene.naming draft head text after)
    (holds : scene.Holds position text)
    (fits : after.assembler.locals ≤ scene.count)
    (length : words.length = head.args.length)
    (offers : scene.Offers 0 words)
    (stage : scene.Stage draft view cells named []
      (Demand.each words head.args))
    (next : ∀ later larger others,
      scene.Stage after later larger others [] [] →
      scene.Ensures (position + textSize text) later) :
    scene.Ensures position view := by
  obtain ⟨first, second⟩ := matched
  rw [holds_append] at holds
  rw [textSize_append, ← Nat.add_assoc] at next
  rw [← List.append_nil (Demand.each words head.args)] at stage
  refine matchArguments first holds.1 (Nat.le_trans second.locals_mono fits)
    length offers stage fun later larger others added reached serves => ?_
  rw [List.nil_append] at reached
  exact matchPostponed second holds.2 fits serves reached next

end Scene

end LogicMachine
