import LogicMachine.Store.Address

/-!
# Words

Every cell of the machine is one 64-bit word.  The low 32 bits hold the offset
of an address, the next four its segment, and bits 40 to 43 the tag that says
how to read the rest.  The tag of a reference is zero, so an untagged address
and a reference to it are the same word; the instructions that build terms push
plain addresses and put tags on them afterwards.
-/

namespace LogicMachine

/-- The number of an interned functor. -/
structure FunctorId where
  index : UInt32
  deriving DecidableEq, Hashable, Inhabited

/-- How the payload of a word is to be read. -/
inductive Tag where
  | reference
  | compound
  | functor
  | constant
  | list
  | other
  deriving DecidableEq, Hashable, Inhabited

namespace Tag

def all : List Tag :=
  [.reference, .compound, .functor, .constant, .list, .other]

def code : Tag → UInt64
  | .reference => 0
  | .compound => 1
  | .functor => 2
  | .constant => 3
  | .list => 4
  | .other => 5

/-- The tag with a given number; every number beyond the known ones is an
opaque payload. -/
def ofCode (code : Nat) : Tag :=
  match code with
  | 0 => .reference
  | 1 => .compound
  | 2 => .functor
  | 3 => .constant
  | 4 => .list
  | _ => .other

def name : Tag → String
  | .reference => "Ref"
  | .compound => "Str"
  | .functor => "Fun"
  | .constant => "Con"
  | .list => "Lis"
  | .other => "Non"

end Tag

/-- A word with its payload decoded. -/
inductive Cell where
  /-- A variable; it is unbound when it points at its own cell. -/
  | reference (target : Address)
  /-- A structure; points at the functor cell before its arguments. -/
  | compound (header : Address)
  | functor (id : FunctorId)
  | constant (id : FunctorId)
  /-- A list pair; points at the head, with the tail in the next cell. -/
  | list (pair : Address)
  | other (payload : UInt64)
  deriving DecidableEq, Inhabited

/-- One packed memory word. -/
structure Word where
  bits : UInt64
  deriving DecidableEq, Inhabited

/-- The bits that hold an address. -/
def addressMask : UInt64 := 0xfffffffff

/-- The bits below the tag. -/
def payloadMask : UInt64 := 0xffffffffff

namespace Address

/-- The untagged word of an address. -/
def pack (address : Address) : Word :=
  ⟨(address.segment.toUInt64 <<< 32) ||| address.offset.toUInt32.toUInt64⟩

end Address

namespace Word

def zero : Word :=
  ⟨0⟩

/-- The address in a word, whatever its tag. -/
def address (word : Word) : Address :=
  Address.ofParts ((word.bits &&& addressMask) >>> 32).toNat
    word.bits.toUInt32.toInt32

def tag (word : Word) : Tag :=
  Tag.ofCode ((word.bits >>> 40) &&& 0xf).toNat

/-- Replaces the tag and keeps the address. -/
def withTag (word : Word) (tag : Tag) : Word :=
  ⟨(tag.code <<< 40) ||| (word.bits &&& addressMask)⟩

/-- Decodes a word. -/
def cell (word : Word) : Cell :=
  match word.tag with
  | .reference => .reference word.address
  | .compound => .compound word.address
  | .functor => .functor ⟨word.address.offset.toUInt32⟩
  | .constant => .constant ⟨word.address.offset.toUInt32⟩
  | .list => .list word.address
  | .other => .other (word.bits &&& payloadMask)

end Word

namespace Cell

def tag : Cell → Tag
  | .reference _ => .reference
  | .compound _ => .compound
  | .functor _ => .functor
  | .constant _ => .constant
  | .list _ => .list
  | .other _ => .other

/-- Puts a tag on the word of an address. -/
def tagged (tag : Tag) (address : Address) : Word :=
  ⟨(tag.code <<< 40) ||| address.pack.bits⟩

/-- Encodes a cell. -/
def pack : Cell → Word
  | .reference target => tagged .reference target
  | .compound header => tagged .compound header
  | .functor id => tagged .functor (.blank id.index.toInt32)
  | .constant id => tagged .constant (.blank id.index.toInt32)
  | .list pair => tagged .list pair
  | .other payload => ⟨(Tag.other.code <<< 40) ||| (payload &&& payloadMask)⟩

/-- The written form of a decoded word. -/
def describe : Cell → String
  | .reference target => "Ref(" ++ target.describe ++ ")"
  | .compound header => "Str(" ++ header.describe ++ ")"
  | .functor id => "Fun(FunctorId(" ++ toString id.index.toNat ++ "))"
  | .constant id => "Con(FunctorId(" ++ toString id.index.toNat ++ "))"
  | .list pair => "Lis(" ++ pair.describe ++ ")"
  | .other payload => "Non(" ++ toString payload.toNat ++ ")"

end Cell

namespace Word

def reference (target : Address) : Word :=
  (Cell.reference target).pack

def compound (header : Address) : Word :=
  (Cell.compound header).pack

def functor (id : FunctorId) : Word :=
  (Cell.functor id).pack

def constant (id : FunctorId) : Word :=
  (Cell.constant id).pack

def list (pair : Address) : Word :=
  (Cell.list pair).pack

/-- The written form of a word. -/
def describe (word : Word) : String :=
  word.cell.describe

end Word

end LogicMachine
