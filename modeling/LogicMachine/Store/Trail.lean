import LogicMachine.Store.Word

/-!
# The trail

The trail is the undo log of backtracking, with one frame for each open choice
point.  A record holds the word that an address held before it was overwritten.
Writes are recorded only if some open choice point can still observe the old
word: with no open frame nothing is recorded, and neither are cells that did not
exist yet when the choice point was made.
-/

namespace LogicMachine

/-- The word that an address held before it was overwritten. -/
structure Record where
  address : Address
  saved : Word
  deriving DecidableEq, Inhabited

namespace Record

/-- The address and the bits of the saved word. -/
def render (record : Record) : String :=
  record.address.render ++ " " ++ toString record.saved.bits.toNat

end Record

/-- How much memory existed when a choice point was made: the heap cells below
`heap` and the stack slots up to `stack`. -/
structure Boundary where
  heap : Int32
  stack : Int32
  deriving DecidableEq, Inhabited

namespace Boundary

/-- The boundary that takes in everything that either of two takes in. -/
def join (left right : Boundary) : Boundary :=
  ⟨if left.heap < right.heap then right.heap else left.heap,
    if left.stack < right.stack then right.stack else left.stack⟩

/-- Whether the old word at an address can still be observed.  Retained cells
outlive backtracking, so theirs always can. -/
def covers (boundary : Boundary) : Address → Bool
  | .heap offset => offset < boundary.heap
  | .stack offset => offset ≤ boundary.stack
  | _ => true

/-- Whether a record of an inner frame is still needed when that frame is
committed.  Register records describe an alternative that no longer exists. -/
def keeps (boundary : Boundary) (record : Record) : Bool :=
  match record.address with
  | .register _ => false
  | address => boundary.covers address

end Boundary

/-- The undo records of one choice point. -/
structure Frame where
  /-- Newest record first. -/
  records : List Record
  /-- The join of the boundaries of this choice point and all older ones.  A
  stack slot popped after an older choice point was made may lie above the
  boundary of a newer one and still have to be restored. -/
  boundary : Boundary
  deriving DecidableEq, Inhabited

namespace Frame

def add (frame : Frame) (record : Record) : Frame :=
  if frame.boundary.covers record.address then
    { frame with records := record :: frame.records }
  else
    frame

/-- Takes over the records of a committed inner frame. -/
def absorb (outer inner : Frame) : Frame :=
  { outer with
    records := inner.records.filter outer.boundary.keeps ++ outer.records }

end Frame

/-- The open frames, newest first, with their number. -/
structure Trail where
  frames : List Frame
  level : Nat
  level_eq : level = frames.length

namespace Trail

def empty : Trail :=
  ⟨[], 0, rfl⟩

instance : Inhabited Trail := ⟨empty⟩

def ofFrames (frames : List Frame) : Trail :=
  ⟨frames, frames.length, rfl⟩

/-- Whether there is a choice point to go back to. -/
def hasChoice (trail : Trail) : Bool :=
  !trail.frames.isEmpty

/-- The number of records in all frames. -/
def recordCount (trail : Trail) : Nat :=
  trail.frames.foldr (fun frame total => frame.records.length + total) 0

/-- Opens a frame for a new choice point. -/
def openFrame (trail : Trail) (boundary : Boundary) : Trail :=
  let joined :=
    match trail.frames with
    | [] => boundary
    | outer :: _ => outer.boundary.join boundary
  ⟨⟨[], joined⟩ :: trail.frames, trail.level + 1, by simp [trail.level_eq]⟩

/-- Records the word that an address is about to lose. -/
def add (trail : Trail) (record : Record) : Trail :=
  match trail with
  | ⟨[], level, same⟩ => ⟨[], level, same⟩
  | ⟨frame :: rest, level, same⟩ => ⟨frame.add record :: rest, level, same⟩

/-- Removes the newest frame, to be replayed newest record first. -/
def pop? (trail : Trail) : Option (Frame × Trail) :=
  match trail with
  | ⟨[], _, _⟩ => none
  | ⟨frame :: rest, level, same⟩ =>
      some (frame, ⟨rest, level - 1, by simp [same]⟩)

/-- Commits a number of frames, one by one from the newest. -/
def commit : Nat → List Frame → List Frame
  | 0, frames => frames
  | _ + 1, [] => []
  | _ + 1, [_] => []
  | count + 1, inner :: outer :: rest =>
      commit count (outer.absorb inner :: rest)

/-- Commits every frame above a level. -/
def cut (trail : Trail) (level : Nat) : Trail :=
  if trail.level ≤ level then
    trail
  else
    ofFrames (commit (trail.level - level) trail.frames)

end Trail

end LogicMachine
