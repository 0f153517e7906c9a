import LogicMachine.Functor
import LogicMachine.Code.Opcode
import LogicMachine.Code.Predicate
import LogicMachine.Term.Printer

/-!
# Events

The engine reports what it does as events on four channels.  A journal keeps
the events of the channels that somebody listens to: the first ones in full,
and of the rest only their number.
-/

namespace LogicMachine

inductive Channel where
  /-- Starts, choice points, backtracking and cuts. -/
  | machine
  /-- Every single instruction. -/
  | steps
  /-- Compiled rules and queries, and how they are linked. -/
  | linking
  /-- Entry to and exit from traced clauses. -/
  | trace
  deriving DecidableEq, Inhabited

namespace Channel

def all : List Channel :=
  [.machine, .steps, .linking, .trace]

def name : Channel → String
  | .machine => "machine"
  | .steps => "steps"
  | .linking => "host"
  | .trace => "trace"

/-- The channel with a given name. -/
def ofName? (name : String) : Option Channel :=
  all.find? fun channel => channel.name == name

end Channel

/-- The two ends of a traced clause. -/
inductive Passage where
  | enter
  | exit
  deriving DecidableEq, Inhabited

namespace Passage

def name : Passage → String
  | .enter => "enter"
  | .exit => "exit"

end Passage

inductive Event where
  | started (entry argumentCount : Nat)
  | choicePoint (level next : Nat)
  | backtracked (level records : Nat)
  | cut (origin target : Nat)
  | stepped (position : Int32) (opcode : Opcode) (operand : UInt32)
  | ruleCompiled (rule : Rule) (clause length : Nat)
  | queryCompiled (query : Rule) (entry : Nat)
  | forwardReference (predicate : Functor) (entry : Nat)
  | clauseAppended (predicate : Functor) (clause : Nat) (next : Predicate)
  | nativeDefined (predicate : Functor) (index : Nat)
  | builtinsInstalled (top : Nat)
  | traced (predicate arguments : String) (depth : Nat) (passage : Passage)

namespace Event

def channel : Event → Channel
  | .started .. | .choicePoint .. | .backtracked .. | .cut .. => .machine
  | .stepped .. => .steps
  | .ruleCompiled .. | .queryCompiled .. | .forwardReference ..
  | .clauseAppended .. | .nativeDefined .. | .builtinsInstalled .. => .linking
  | .traced .. => .trace

/-- The written form of an event, without its channel. -/
def describe : Event → String
  | .started entry argumentCount =>
      "start entry=" ++ toString entry ++ " argc=" ++ toString argumentCount
  | .choicePoint level next =>
      "choice point level=" ++ toString level ++ " next=" ++ toString next
  | .backtracked level records =>
      "backtrack level=" ++ toString level ++ " records=" ++ toString records
  | .cut origin target =>
      "cut from=" ++ toString origin ++ " to=" ++ toString target
  | .stepped position opcode operand =>
      "step at=" ++ toString position.toInt ++ " opcode=" ++ opcode.name ++
        " operand=" ++ toString operand.toNat
  | .ruleCompiled rule clause length =>
      "rule compiled rule=" ++ rule.render ++ " clause=" ++ toString clause ++
        " len=" ++ toString length
  | .queryCompiled query entry =>
      "query compiled query=" ++ query.render ++ " entry=" ++ toString entry
  | .forwardReference predicate entry =>
      "forward reference predicate=" ++ predicate.render ++ " thunk=" ++
        toString entry
  | .clauseAppended predicate clause next =>
      "clause appended predicate=" ++ predicate.render ++ " clause=" ++
        toString clause ++ " next=" ++ next.describe
  | .nativeDefined predicate index =>
      "native defined predicate=" ++ predicate.render ++ " index=" ++
        toString index
  | .builtinsInstalled top => "builtins installed code=" ++ toString top
  | .traced predicate arguments depth passage =>
      "predicate=" ++ predicate ++ " args=" ++ arguments ++ " depth=" ++
        toString depth ++ " port=" ++ passage.name

/-- The written form of an event. -/
def render (event : Event) : String :=
  event.channel.name ++ ": " ++ event.describe

end Event

/-- What has been reported since the journal was last emptied. -/
structure Journal where
  /-- The channels that somebody listens to. -/
  channels : List Channel
  /-- How many events are kept. -/
  capacity : Nat
  /-- The events kept, oldest first. -/
  events : Array Event
  /-- The number of all events. -/
  count : Nat

namespace Journal

/-- A journal that nobody listens to. -/
def silent : Journal :=
  ⟨[], 0, #[], 0⟩

instance : Inhabited Journal := ⟨silent⟩

def listening (channels : List Channel) (capacity : Nat) : Journal :=
  ⟨channels, capacity, #[], 0⟩

def wants (journal : Journal) (channel : Channel) : Bool :=
  journal.channels.contains channel

/-- Enters an event if somebody listens to its channel. -/
@[inline]
def add (journal : Journal) (event : Event) : Journal :=
  if journal.wants event.channel then
    { journal with
      events :=
        if journal.events.size < journal.capacity then
          journal.events.push event
        else
          journal.events
      count := journal.count + 1 }
  else
    journal

/-- Forgets all events. -/
def clear (journal : Journal) : Journal :=
  { journal with events := #[], count := 0 }

end Journal

end LogicMachine
