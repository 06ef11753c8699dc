namespace RedBlack

/-- The number of a slot in a store of nodes. -/
abbrev Slot := Nat

/-- What a link of a tree may lead to. A handle is a 32-bit number: the two
    largest numbers are set aside for the missing child and for the header of a
    tree, and every smaller one names a slot. -/
inductive Handle where
  /-- No node at all: a missing child. -/
  | nil
  /-- The header of the tree, which is the parent of the root and the position
      past the last item. -/
  | header
  /-- The node in a slot. -/
  | node (slot : Slot)
  deriving DecidableEq, Repr

namespace Handle

/-- How many slots a store may hand out: slots are numbered below the two
    numbers set aside. -/
def maxSlots : Nat := 0xFFFFFFFE

def number : Handle → Nat
  | nil => maxSlots + 1
  | header => maxSlots
  | node slot => slot

def text (h : Handle) : String :=
  s!"Id({h.number})"

def isNil : Handle → Bool
  | nil => true
  | _ => false

def isHeader : Handle → Bool
  | header => true
  | _ => false

def isNode : Handle → Bool
  | node _ => true
  | _ => false

/-- The handle of an end of a tree: the header stands in where there is no
    node. -/
def ofEnd : Option Slot → Handle
  | none => header
  | some slot => node slot

/-- The handle of a child: nil stands in where there is no node. -/
def ofChild : Option Slot → Handle
  | none => nil
  | some slot => node slot

end Handle

end RedBlack
