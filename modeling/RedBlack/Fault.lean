import RedBlack.Handle
import RedBlack.Side

namespace RedBlack

/-- The contract violation that stopped an operation. It is no error that a
    caller handles: every operation checks what it relies on, and names here
    what it found broken. -/
inductive Fault where
  /-- A position was used with a tree of another identity. -/
  | foreignPosition
  /-- Two positions of different trees were compared. -/
  | mixedPositions
  /-- A step forward from the end. -/
  | pastEnd
  /-- A step back from the end of an empty tree. -/
  | emptyEnd
  /-- A step back from the first item. -/
  | beforeFirst
  /-- The end was to be erased. -/
  | erasingEnd
  /-- The end of a range to erase comes before its start. -/
  | reversedRange
  /-- A link that leads to no node was followed. -/
  | dereference (link : Handle)
  /-- The place for a new node is taken: there is a root already. -/
  | rootTaken
  /-- The place for a new node is taken: there is a left child already. -/
  | leftTaken
  /-- The place for a new node is taken: there is a right child already. -/
  | rightTaken
  /-- A node was to be turned down to a side while it has no child on the
      other. -/
  | noChildToRaise (toward : Side)
  /-- A node was to give way to another one below a node that holds it on
      neither side. -/
  | strangeChild
  /-- A slot that holds no node was read. -/
  | noNode (slot : Slot)
  /-- A slot was released that is free already. -/
  | doubleFree (slot : Slot)
  /-- A node was to be taken out of a slot that never got one. -/
  | neverConstructed (slot : Slot)
  /-- A node was put into a slot that is not reserved for one. -/
  | notReserved
  /-- The list of free slots leads to a slot in use. -/
  | brokenFreeList
  /-- A slot was asked of a handle that names none. -/
  | noSlotNamed
  /-- A number too large for a slot was made a handle. -/
  | slotTooLarge
  /-- A slot beyond those ever handed out. -/
  | outOfBounds (size index : Nat)
  /-- A count would fall below zero. -/
  | subtractOverflow
  /-- No slot was left, on a path that reports no errors. -/
  | allocationFailed
  deriving DecidableEq, Repr

namespace Fault

def message : Fault → String
  | foreignPosition => "assertion `left == right` failed: position belongs to another tree"
  | mixedPositions => "assertion `left == right` failed: comparing positions of different trees"
  | pastEnd => "advancing past the end"
  | emptyEnd => "stepping back from the end of an empty tree"
  | beforeFirst => "stepping back from the first element"
  | erasingEnd => "erasing the end position"
  | reversedRange => "range end precedes its start"
  | dereference link => s!"dereferencing {link.text}"
  | rootTaken => "assertion failed: self.header.root.is_nil()"
  | leftTaken => "assertion failed: self.left(p).is_nil()"
  | rightTaken => "assertion failed: self.right(p).is_nil()"
  | noChildToRaise .left => "rotate_left requires a right child"
  | noChildToRaise .right => "rotate_right requires a left child"
  | strangeChild => "assertion `left == right` failed"
  | noNode slot => unreachable s!"slot {(Handle.node slot).text} holds no node"
  | doubleFree slot => unreachable s!"double free of slot {(Handle.node slot).text}"
  | neverConstructed slot => unreachable s!"slot {(Handle.node slot).text} was never constructed"
  | notReserved => "construct into unreserved slot"
  | brokenFreeList => unreachable "free list points at a live slot"
  | noSlotNamed => "assertion failed: self.is_node()"
  | slotTooLarge => "assertion failed: index < Self::MAX_SLOTS"
  | outOfBounds size index => s!"index out of bounds: the len is {size} but the index is {index}"
  | subtractOverflow => "attempt to subtract with overflow"
  | allocationFailed => "node allocation failed"
where
  /-- The wording of a fault that correct stores and trees never come to. -/
  unreachable (text : String) : String :=
    s!"internal error: entered unreachable code: {text}"

end Fault

namespace Handle

/-- The slot that a handle names. -/
def slot : Handle → Except Fault Slot
  | node slot => .ok slot
  | _ => .error .noSlotNamed

/-- The handle of a slot given by its number. -/
def ofIndex (index : Nat) : Except Fault Handle :=
  if index < maxSlots then .ok (node index) else .error .slotTooLarge

end Handle

/-- The difference `a - b` of counters, which is a fault below zero. -/
def checkedSub (a b : Nat) : Except Fault Nat :=
  if b ≤ a then .ok (a - b) else .error .subtractOverflow

end RedBlack
