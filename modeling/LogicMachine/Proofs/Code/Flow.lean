import Mathlib.Algebra.BigOperators.Group.List.Basic
import Mathlib.Logic.Relation
import LogicMachine.Proofs.Code.Lines

/-!
# Control flow in a clause

The code of a clause is followed without running it.  A path keeps count of the
operands above the slots of the activation record and of the slots that have been
stored.  It goes on from an instruction to the next one, to where a branch leads,
or ends.  A call takes as many operands as its goal has arguments.
-/

namespace LogicMachine

namespace Opcode

/-- The number of operands that an instruction takes.  A call takes those of its
goal besides. -/
def takes : Opcode → Nat
  | .store | .bind | .unify | .add | .branchEqual | .branchNotEqual => 2
  | .duplicate | .pop | .load | .storeLocal | .deref | .getTag | .getAddress
  | .tagReference | .tagCompound | .tagFunctor | .tagConstant | .tagList
  | .storeHeapTop | .storeCutBase | .increment | .cut => 1
  | .halt | .nop | .fail | .loadConstant | .loadLocal | .loadLocalAddress
  | .loadArgumentAddress | .loadHeapTop | .loadCutBase | .allocate | .deallocate
  | .call | .proceed | .branchAlways | .branchAbsolute | .choicePoint
  | .choicePointRelative | .getLevel | .native | .trace | .endTrace => 0

/-- The number of operands that an instruction leaves instead. -/
def gives : Opcode → Nat
  | .duplicate => 2
  | .load | .loadConstant | .loadLocal | .loadLocalAddress
  | .loadArgumentAddress | .deref | .getTag | .getAddress | .tagReference
  | .tagCompound | .tagFunctor | .tagConstant | .tagList | .loadHeapTop
  | .loadCutBase | .increment | .add | .getLevel => 1
  | .halt | .nop | .fail | .pop | .store | .storeLocal | .bind | .unify
  | .storeHeapTop | .storeCutBase | .allocate | .deallocate | .call | .proceed
  | .branchEqual | .branchNotEqual | .branchAlways | .branchAbsolute
  | .choicePoint | .choicePointRelative | .cut | .native | .trace
  | .endTrace => 0

/-- Control may go on to the next instruction. -/
def goesOn : Opcode → Bool
  | .halt | .fail | .proceed | .branchAlways | .branchAbsolute => false
  | _ => true

end Opcode

namespace CodeLine

def opcode? : CodeLine → Option Opcode
  | .plain opcode | .operand opcode _ => some opcode
  | .raw _ => none

/-- The operand; zero if there is none. -/
def value : CodeLine → Int32
  | .operand _ value => value
  | .plain _ | .raw _ => 0

def isCall (line : CodeLine) : Bool :=
  line.opcode? = some .call

def takes (line : CodeLine) : Nat :=
  (line.opcode?.map Opcode.takes).getD 0

def gives (line : CodeLine) : Nat :=
  (line.opcode?.map Opcode.gives).getD 0

def goesOn (line : CodeLine) : Bool :=
  (line.opcode?.map Opcode.goesOn).getD false

/-- The operand is the distance to another instruction. -/
def branches (line : CodeLine) : Bool :=
  (line.opcode?.map Opcode.isRelative).getD false

/-- The slot whose word, or whose address, an instruction loads. -/
def loads? : CodeLine → Option Nat
  | .operand .loadLocal value | .operand .loadLocalAddress value =>
      some value.toUInt32.toNat
  | _ => none

/-- The slot that an instruction stores. -/
def stores? : CodeLine → Option Nat
  | .operand .storeLocal value => some value.toUInt32.toNat
  | _ => none

end CodeLine

/-! ## Paths -/

/-- What a path keeps count of. -/
structure Ledger where
  /-- The number of operands above the slots. -/
  depth : Nat
  /-- The slots that have been stored. -/
  stored : List Nat

/-- A point of a path. -/
structure Point extends Ledger where
  /-- The number of the instruction that comes next. -/
  index : Nat

/-- The code of a clause and the goals that its calls are made for. -/
structure Routine where
  lines : List CodeLine
  calls : List Goal

namespace Routine

variable (routine : Routine)

/-- The position of an instruction, in code words from the start. -/
def position (index : Nat) : Nat :=
  codeSize (routine.lines.take index)

/-- The goal of the next call from an instruction on. -/
def goal? (index : Nat) : Option Goal :=
  routine.calls[(routine.lines.take index).countP CodeLine.isCall]?

/-- The number of operands that an instruction takes. -/
def takes (index : Nat) (line : CodeLine) : Nat :=
  if line.isCall then ((routine.goal? index).map Goal.arity).getD 0
  else line.takes

/-- The branch at an instruction leads to another one. -/
def Lands (index : Nat) (line : CodeLine) (target : Nat) : Prop :=
  target < routine.lines.length ∧
    (routine.position target : Int) = routine.position index + line.value.toInt

/-- The point after an instruction. -/
def passed (point : Point) (line : CodeLine) (next : Nat) : Point where
  depth := point.depth - routine.takes point.index line + line.gives
  stored := line.stores?.toList ++ point.stored
  index := next

/-- One step of a path. -/
inductive Step : Point → Point → Prop where
  | next {point line} (found : routine.lines[point.index]? = some line)
      (goesOn : line.goesOn = true) :
      Step point (routine.passed point line (point.index + 1))
  | branch {point line target}
      (found : routine.lines[point.index]? = some line)
      (branches : line.branches = true)
      (lands : routine.Lands point.index line target) :
      Step point (routine.passed point line target)

/-- Paths from one point to another. -/
def Reaches : Point → Point → Prop :=
  Relation.ReflTransGen routine.Step

/-- Where the paths of a clause start. -/
def start : Point :=
  ⟨⟨0, []⟩, 0⟩

/-- An instruction finds what it needs. -/
structure Accepts (point : Point) (line : CodeLine) : Prop where
  enough : routine.takes point.index line ≤ point.depth
  assigned : ∀ slot, line.loads? = some slot → slot ∈ point.stored
  level : line.opcode? = some .deallocate → point.depth = 0

/-- There is an instruction at the point, and it finds what it needs. -/
def Sound (point : Point) : Prop :=
  ∃ line, routine.lines[point.index]? = some line ∧
    routine.Accepts point line

/-! ## Safe points -/

/-- What an instruction other than a call does to the number of operands. -/
def balance (line : CodeLine) : Int :=
  if line.isCall then 0 else line.gives - line.takes

/-- The number of operands after instructions that follow each other. -/
def level (before : List CodeLine) : Int :=
  (before.map balance).sum -
    ((routine.calls.take (before.countP CodeLine.isCall)).map Goal.arity).sum

/-- Every path from the point is sound, and the number of operands depends on
the instruction only. -/
def Safe (point : Point) : Prop :=
  ∀ later, routine.Reaches point later →
    routine.Sound later ∧
      (later.depth : Int) = routine.level (routine.lines.take later.index)

variable {routine}

theorem Safe.intro {point : Point} {line : CodeLine}
    (found : routine.lines[point.index]? = some line)
    (accepts : routine.Accepts point line)
    (level : (point.depth : Int) =
      routine.level (routine.lines.take point.index))
    (next : line.goesOn = true →
      routine.Safe (routine.passed point line (point.index + 1)))
    (branch : line.branches = true → ∀ target,
      routine.Lands point.index line target →
        routine.Safe (routine.passed point line target)) :
    routine.Safe point := by
  intro later reaches
  cases reaches.cases_head with
  | inl same => exact same ▸ ⟨⟨line, found, accepts⟩, level⟩
  | inr step =>
      obtain ⟨middle, first, rest⟩ := step
      cases first with
      | next present goesOn =>
          cases found.symm.trans present
          exact next goesOn later rest
      | branch present branches lands =>
          cases found.symm.trans present
          exact branch branches _ lands later rest

/-! ## Texts in the code -/

variable (routine) in
/-- The code goes on with a text after some lines. -/
structure Continues (place : Label → Nat) (before : List CodeLine)
    (items : List Item) : Prop where
  lines : before ++ linesOf place (codeSize before) items <+: routine.lines
  placed : Placed place (codeSize before) items

section Continues

variable {place : Label → Nat} {before : List CodeLine}
  {first second rest : List Item}

theorem Continues.append
    (continues : routine.Continues place before (first ++ second)) :
    routine.Continues place before first ∧
      routine.Continues place
        (before ++ linesOf place (codeSize before) first) second := by
  obtain ⟨lines, placed⟩ := continues
  rw [linesOf_append, ← List.append_assoc] at lines
  rw [placed_append] at placed
  refine ⟨⟨(List.prefix_append _ _).trans lines, placed.1⟩, ?_, ?_⟩
  · rw [codeSize_append, codeSize_linesOf]
    exact lines
  · rw [codeSize_append, codeSize_linesOf]
    exact placed.2

theorem Continues.lines_start
    (continues : routine.Continues place before rest) :
    before <+: routine.lines :=
  (List.prefix_append _ _).trans continues.lines

theorem take_of_isPrefix {lines : List CodeLine} (isPrefix : before <+: lines) :
    lines.take before.length = before := by
  obtain ⟨rest, rfl⟩ := isPrefix
  exact List.take_left

theorem found_of_isPrefix {lines : List CodeLine} {line : CodeLine}
    {more : List CodeLine} (isPrefix : before ++ line :: more <+: lines) :
    lines[before.length]? = some line := by
  obtain ⟨rest, rfl⟩ := isPrefix
  simp

theorem level_append (before more : List CodeLine)
    (noCall : ∀ line ∈ more, line.isCall = false) :
    routine.level (before ++ more) =
      routine.level before + (more.map balance).sum := by
  have count : more.countP CodeLine.isCall = 0 := by
    rw [List.countP_eq_zero]
    intro line member
    rw [noCall line member]
    exact Bool.false_ne_true
  simp only [level, List.map_append, List.sum_append, List.countP_append, count,
    Nat.add_zero]
  omega

theorem level_call {line : CodeLine} {goal : Goal} (isCall : line.isCall = true)
    (isPrefix : before <+: routine.lines)
    (isGoal : routine.goal? before.length = some goal) :
    routine.level (before ++ [line]) = routine.level before - goal.arity := by
  rw [goal?, take_of_isPrefix isPrefix] at isGoal
  simp only [level, List.map_append, List.map_cons, List.map_nil,
    List.sum_append, List.countP_append, List.countP_singleton, isCall, if_true,
    List.take_add_one, isGoal, Option.toList_some, balance, List.sum_cons,
    List.sum_nil]
  omega

end Continues

end Routine

/-! ## Straight code -/

namespace Ledger

/-- The counts after an instruction that is not a call. -/
def passed (ledger : Ledger) (line : CodeLine) : Ledger where
  depth := ledger.depth - line.takes + line.gives
  stored := line.stores?.toList ++ ledger.stored

/-- An instruction without branches leads to counts as wanted. -/
def Then (ledger : Ledger) (wanted : Ledger → Prop) (line : CodeLine) : Prop :=
  (line.goesOn = true ∧ line.branches = false ∧ line.isCall = false ∧
    line.opcode? ≠ some .deallocate) ∧
    line.takes ≤ ledger.depth ∧
    (∀ slot, line.loads? = some slot → slot ∈ ledger.stored) ∧
    wanted (ledger.passed line)

/-- Instructions without branches lead to counts as wanted. -/
def ThenAll (ledger : Ledger) (wanted : Ledger → Prop) : List Item → Prop
  | [] => wanted ledger
  | .plain opcode :: rest =>
      ledger.Then (fun later => later.ThenAll wanted rest) (.plain opcode)
  | .operand opcode value :: rest =>
      ledger.Then (fun later => later.ThenAll wanted rest)
        (.operand opcode value.toInt32)
  | .branch _ _ :: _ | .mark _ :: _ => False

end Ledger

namespace Routine

variable {routine : Routine} {place : Label → Nat}

variable (routine place) in
/-- The text leads every path from one kind of counts to another. -/
def Carries (before : Ledger → Prop) (items : List Item)
    (after : Ledger → Prop) : Prop :=
  ∀ past, routine.Continues place past items →
    (∀ ledger, after ledger →
      (ledger.depth : Int) =
        routine.level (past ++ linesOf place (codeSize past) items) →
      routine.Safe
        ⟨ledger, (past ++ linesOf place (codeSize past) items).length⟩) →
    ∀ ledger, before ledger → (ledger.depth : Int) = routine.level past →
      routine.Safe ⟨ledger, past.length⟩

namespace Carries

variable {before middle after : Ledger → Prop} {items more : List Item}

theorem nil (implies : ∀ ledger, before ledger → after ledger) :
    routine.Carries place before [] after := by
  intro past continues next ledger starts level
  have safe := next ledger (implies ledger starts)
  rw [linesOf, List.append_nil] at safe
  exact safe level

theorem append (first : routine.Carries place before items middle)
    (second : routine.Carries place middle more after) :
    routine.Carries place before (items ++ more) after := by
  intro past continues next ledger starts level
  obtain ⟨here, there⟩ := continues.append
  refine first past here (fun later reached flat => ?_) ledger starts level
  refine second _ there (fun last final => ?_) later reached flat
  rw [codeSize_append, codeSize_linesOf, List.append_assoc, ← linesOf_append]
  exact next last final

theorem imp {stronger weaker : Ledger → Prop}
    (carries : routine.Carries place before items after)
    (start : ∀ ledger, stronger ledger → before ledger)
    (finish : ∀ ledger, after ledger → weaker ledger) :
    routine.Carries place stronger items weaker :=
  fun past continues next ledger starts =>
    carries past continues (fun later reached => next later (finish later reached))
      ledger (start ledger starts)

/-- One instruction of straight code. -/
theorem line {past : List CodeLine} {ledger : Ledger} {line : CodeLine}
    {wanted : Ledger → Prop} (found : past ++ [line] <+: routine.lines)
    (level : (ledger.depth : Int) = routine.level past)
    (then_ : ledger.Then wanted line)
    (next : ∀ later, wanted later →
      (later.depth : Int) = routine.level (past ++ [line]) →
      routine.Safe ⟨later, (past ++ [line]).length⟩) :
    routine.Safe ⟨ledger, past.length⟩ := by
  obtain ⟨⟨-, branches, noCall, opcode⟩, enough, assigned, holds⟩ := then_
  have takes : routine.takes past.length line = line.takes := by
    rw [Routine.takes, noCall]
    rfl
  refine .intro (found_of_isPrefix found) ⟨?_, assigned, ?_⟩ ?_ ?_ ?_
  · exact takes ▸ enough
  · exact fun isEnd => (opcode isEnd).elim
  · rw [take_of_isPrefix ((List.prefix_append _ _).trans found)]
    exact level
  · intro _
    have safe := next _ holds ?_
    · rw [List.length_append] at safe
      unfold Routine.passed
      rw [takes]
      exact safe
    · rw [level_append past [line] (by simpa using noCall), ← level]
      simp only [Ledger.passed, List.map_cons, List.map_nil, List.sum_cons,
        List.sum_nil, balance, noCall]
      simp
      omega
  · intro isBranch
    rw [branches] at isBranch
    cases isBranch

theorem straight
    (each : ∀ ledger, before ledger → ledger.ThenAll after items) :
    routine.Carries place before items after := by
  intro past continues next ledger starts level
  have runs := each ledger starts
  clear each starts
  induction items generalizing past ledger with
  | nil =>
      have safe := next ledger runs
      rw [linesOf, List.append_nil] at safe
      exact safe level
  | cons item rest ih =>
      have split : item :: rest = [item] ++ rest := rfl
      rw [split] at continues next
      obtain ⟨here, there⟩ := continues.append
      rw [linesOf_append, ← codeSize_linesOf (codeSize past) [item],
        ← codeSize_append, ← List.append_assoc] at next
      cases item with
      | plain | operand =>
          exact line here.lines level runs fun later reached flat =>
            ih _ there next later flat reached
      | branch | mark => exact runs.elim

end Carries

end Routine

/-! ## Balanced texts -/

namespace Item

def isCall : Item → Bool
  | .plain opcode | .operand opcode _ | .branch opcode _ => opcode = .call
  | .mark _ => false

/-- What an item other than a call does to the number of operands. -/
def balance : Item → Int
  | .plain opcode | .operand opcode _ | .branch opcode _ =>
      if opcode = .call then 0 else opcode.gives - opcode.takes
  | .mark _ => 0

end Item

/-- The text makes no calls and leaves as many operands as it finds. -/
structure Balanced (items : List Item) : Prop where
  noCall : ∀ item ∈ items, item.isCall = false
  even : (items.map Item.balance).sum = 0

namespace Balanced

theorem of_check {items : List Item}
    (noCall : items.all (fun item => !item.isCall) = true)
    (even : (items.map Item.balance).sum = 0) : Balanced items where
  noCall := by simpa using noCall
  even := even

theorem append {first second : List Item} (left : Balanced first)
    (right : Balanced second) : Balanced (first ++ second) where
  noCall := by
    intro item member
    rcases List.mem_append.mp member with here | there
    · exact left.noCall item here
    · exact right.noCall item there
  even := by rw [List.map_append, List.sum_append, left.even, right.even]; rfl

theorem flatMap {α : Type} {text : α → List Item} {values : List α}
    (each : ∀ value ∈ values, Balanced (text value)) :
    Balanced (values.flatMap text) := by
  induction values with
  | nil => exact ⟨nofun, rfl⟩
  | cons value rest ih =>
      exact (each value List.mem_cons_self).append
        (ih fun other member => each other (List.mem_cons_of_mem _ member))

end Balanced

namespace Routine

variable {routine : Routine} {place : Label → Nat}

theorem isCall_linesOf {position : Nat} {items : List Item}
    (noCall : ∀ item ∈ items, item.isCall = false) :
    ∀ line ∈ linesOf place position items, line.isCall = false := by
  induction items generalizing position with
  | nil => nofun
  | cons item rest ih =>
      have here := noCall item List.mem_cons_self
      have others := fun position => @ih position fun other member =>
        noCall other (List.mem_cons_of_mem _ member)
      cases item with
      | mark => exact others position
      | plain | operand | branch =>
          intro line member
          rcases List.mem_cons.mp member with rfl | later
          · simpa [Item.isCall, CodeLine.isCall, CodeLine.opcode?] using here
          · exact others _ line later

theorem balance_linesOf (position : Nat) (items : List Item) :
    ((linesOf place position items).map balance).sum =
      (items.map Item.balance).sum := by
  induction items generalizing position with
  | nil => rfl
  | cons item rest ih =>
      cases item <;>
        simp [linesOf, ih, balance, Item.balance, CodeLine.isCall,
          CodeLine.opcode?, CodeLine.gives, CodeLine.takes]

theorem level_balanced {items : List Item} (balanced : Balanced items)
    (past : List CodeLine) (position : Nat) :
    routine.level (past ++ linesOf place position items) =
      routine.level past := by
  rw [level_append _ _ (isCall_linesOf balanced.noCall), balance_linesOf,
    balanced.even, Int.add_zero]

/-! ## Branches -/

variable {past aim : List CodeLine} {ledger : Ledger} {rest : List Item}

/-- The operand of a branch is the distance to its label. -/
theorem value_branch {source target : Nat} (small : source < 2 ^ 31)
    (near : target < 2 ^ 31) :
    (target.toUInt32 - source.toUInt32).toInt32.toInt =
      (target : Int) - source := by
  have value {number : Nat} (fits : number < 2 ^ 31) :
      number.toUInt32.toInt32.toInt = number :=
    Int32.toInt_ofNat_of_lt fits
  rw [UInt32.toInt32_sub, Int32.toInt_sub, value small, value near]
  apply Int.bmod_eq_of_le <;> omega

theorem codeSize_le {lines : List CodeLine} (isPrefix : past <+: lines) :
    codeSize past ≤ codeSize lines := by
  obtain ⟨more, rfl⟩ := isPrefix
  rw [codeSize_append]
  exact Nat.le_add_right _ _

/-- A branch leads to the place of its label and nowhere else. -/
theorem lands_branch {opcode : Opcode} {label : Label}
    (small : codeSize routine.lines < 2 ^ 31) (here : past <+: routine.lines)
    (there : aim <+: routine.lines) (placed : place label = codeSize aim)
    (target : Nat) :
    routine.Lands past.length (.operand opcode
        ((place label).toUInt32 - (codeSize past).toUInt32).toInt32) target ↔
      target < routine.lines.length ∧ target = aim.length := by
  have first := Nat.lt_of_le_of_lt (codeSize_le here) small
  have second := Nat.lt_of_le_of_lt (codeSize_le there) small
  unfold Lands position
  rw [take_of_isPrefix here, CodeLine.value, placed, value_branch first second]
  refine and_congr_right fun inside => ?_
  constructor
  · intro same
    have equal : codeSize (routine.lines.take target) = codeSize aim := by
      omega
    have lists := eq_of_codeSize_eq (List.take_prefix _ _) there equal
    rw [← lists, List.length_take, Nat.min_eq_left (Nat.le_of_lt inside)]
  · rintro rfl
    rw [take_of_isPrefix there]
    omega

theorem Safe.branch {opcode : Opcode} {label : Label}
    (small : codeSize routine.lines < 2 ^ 31)
    (continues : routine.Continues place past (.branch opcode label :: rest))
    (isBranch : opcode = .branchEqual ∨ opcode = .branchNotEqual ∨
      opcode = .branchAlways)
    (there : aim <+: routine.lines) (placed : place label = codeSize aim)
    (level : (ledger.depth : Int) = routine.level past)
    (enough : opcode.takes ≤ ledger.depth)
    (next : opcode.goesOn = true → routine.Safe
      ⟨⟨ledger.depth - opcode.takes, ledger.stored⟩, past.length + 1⟩)
    (jump : routine.Safe
      ⟨⟨ledger.depth - opcode.takes, ledger.stored⟩, aim.length⟩) :
    routine.Safe ⟨ledger, past.length⟩ := by
  have start := continues.lines_start
  refine .intro (found_of_isPrefix continues.lines) ⟨?_, ?_, ?_⟩ ?_ ?_ ?_
  · rcases isBranch with rfl | rfl | rfl <;> exact enough
  · rcases isBranch with rfl | rfl | rfl <;> nofun
  · rcases isBranch with rfl | rfl | rfl <;> nofun
  · rw [take_of_isPrefix start]
    exact level
  · intro goesOn
    have safe := next goesOn
    rcases isBranch with rfl | rfl | rfl <;> exact safe
  · intro _ target lands
    obtain ⟨-, rfl⟩ := (lands_branch small start there placed target).mp lands
    rcases isBranch with rfl | rfl | rfl <;> exact jump

/-- A path ends where the clause fails or returns. -/
theorem Safe.stop {opcode : Opcode}
    (continues : routine.Continues place past (.plain opcode :: rest))
    (stops : opcode = .fail ∨ opcode = .proceed)
    (level : (ledger.depth : Int) = routine.level past) :
    routine.Safe ⟨ledger, past.length⟩ := by
  have reached : (ledger.depth : Int) =
      routine.level (routine.lines.take past.length) := by
    rw [take_of_isPrefix continues.lines_start]
    exact level
  rcases stops with rfl | rfl
  · exact .intro (found_of_isPrefix continues.lines)
      ⟨Nat.zero_le _, nofun, nofun⟩ reached nofun nofun
  · exact .intro (found_of_isPrefix continues.lines)
      ⟨Nat.zero_le _, nofun, nofun⟩ reached nofun nofun

/-- A label stands after the lines of what comes before it. -/
theorem Continues.mark {before : List Item} {label : Label}
    (continues : routine.Continues place past (before ++ .mark label :: rest)) :
    past ++ linesOf place (codeSize past) before <+: routine.lines ∧
      place label =
        codeSize (past ++ linesOf place (codeSize past) before) := by
  obtain ⟨here, there⟩ := continues.append
  exact ⟨here.lines, there.placed.1⟩

/-- A test that leaves two operands, and the branch that it decides. -/
theorem Safe.test {test : List Item} {opcode : Opcode} {label : Label}
    {stored : List Nat} (small : codeSize routine.lines < 2 ^ 31)
    (continues : routine.Continues place past
      (test ++ .branch opcode label :: rest))
    (isBranch : opcode = .branchEqual ∨ opcode = .branchNotEqual)
    (tests : Ledger.ThenAll ⟨0, stored⟩ (· = ⟨2, stored⟩) test)
    (there : aim <+: routine.lines) (placed : place label = codeSize aim)
    (level : ((0 : Nat) : Int) = routine.level past)
    (next : ∀ later, later = past ++
        linesOf place (codeSize past) (test ++ [.branch opcode label]) →
      ((0 : Nat) : Int) = routine.level later →
      routine.Continues place later rest →
      routine.Safe ⟨⟨0, stored⟩, later.length⟩)
    (jump : routine.Safe ⟨⟨0, stored⟩, aim.length⟩) :
    routine.Safe ⟨⟨0, stored⟩, past.length⟩ := by
  obtain ⟨testing, branching⟩ := continues.append
  have carries : routine.Carries place (· = ⟨0, stored⟩) test
      (· = ⟨2, stored⟩) := .straight fun _ starts => starts ▸ tests
  refine carries past testing ?_ _ rfl level
  rintro _ rfl high
  have split : Item.branch opcode label :: rest =
      [.branch opcode label] ++ rest := rfl
  have continued := (split ▸ branching).append.2
  have facts : opcode.takes = 2 ∧ opcode.goesOn = true ∧
      opcode ≠ .call ∧ opcode.gives = 0 := by
    rcases isBranch with rfl | rfl <;> decide
  obtain ⟨takes, -, noCall, gives⟩ := facts
  refine .branch small branching ?_ there placed high ?_ ?_ ?_
  · exact isBranch.elim .inl fun other => .inr (.inl other)
  · exact Nat.le_of_eq takes
  · intro _
    rw [takes]
    have safe := next _ rfl ?_ ?_
    · rw [linesOf_append, ← List.append_assoc, List.length_append] at safe
      exact safe
    · rw [linesOf_append, ← List.append_assoc, level_append _ _ ?_, ← high]
      · simp [linesOf, balance, CodeLine.isCall, CodeLine.opcode?,
          CodeLine.gives, CodeLine.takes, noCall, takes, gives]
      · simp [linesOf, CodeLine.isCall, CodeLine.opcode?, noCall]
    · rw [linesOf_append, ← List.append_assoc]
      rw [codeSize_append, codeSize_linesOf] at continued
      exact continued
  · rw [takes]
    exact jump

end Routine

end LogicMachine
