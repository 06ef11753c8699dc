import RedBlack.Query
import RedBlack.Shape.Path
import RedBlack.Store

namespace RedBlack

/-- A place in a tree: an item, or the end past the last item. It names a slot,
    so it outlives every change but the erasure of its own item. The tag is the
    identity of the tree that gave the position. -/
structure Position where
  slot : Option Slot
  tag : UInt64
  deriving DecidableEq, Repr

namespace Position

def isEnd (p : Position) : Bool :=
  p.slot.isNone

/-- The handle of the item, or the header's for the end. -/
def handle (p : Position) : Handle :=
  .ofEnd p.slot

/-- Whether two positions of one tree are the same place. -/
def same (p q : Position) : Except Fault Bool :=
  if p.tag = q.tag then .ok (p.slot = q.slot) else .error .mixedPositions

end Position

/-- A red-black tree over items `α` in the order of the keys that `key` reads
    off them. Its nodes lie in the slots of a store; the shape links the slots;
    the ends are kept at hand, so that finding the first or the last item takes
    no walk. -/
structure Tree {α κ : Type} (key : α → κ) where
  shape : Shape
  /-- The slot of the first item. -/
  leftmost : Option Slot
  /-- The slot of the last item. -/
  rightmost : Option Slot
  /-- How many items there are. -/
  size : Nat
  /-- Whether one key comes before another; it belongs to the content and goes
      where that goes. -/
  less : κ → κ → Bool
  store : Store α
  /-- The identity of the tree. -/
  tag : UInt64

namespace Tree

variable {α κ : Type} {key : α → κ}

/-- A tree without items. -/
def empty (key : α → κ) (less : κ → κ → Bool) (store : Store α) (tag : UInt64) : Tree key where
  shape := .nil
  leftmost := none
  rightmost := none
  size := 0
  less := less
  store := store
  tag := tag

def isEmpty (t : Tree key) : Bool :=
  t.size = 0

def position (t : Tree key) (slot : Option Slot) : Position where
  slot := slot
  tag := t.tag

/-- The position of the first item, or the end if there is none. -/
def start (t : Tree key) : Position :=
  t.position t.leftmost

/-- The position past the last item. -/
def finish (t : Tree key) : Position :=
  t.position none

/-- The slot of a position, which must be one of this tree. -/
def own (t : Tree key) (p : Position) : Except Fault (Option Slot) :=
  if p.tag = t.tag then .ok p.slot else .error .foreignPosition

def itemAt (t : Tree key) (slot : Slot) : Except Fault α :=
  t.store.read slot

def keyAt (t : Tree key) (slot : Slot) : Except Fault κ :=
  (t.itemAt slot).map key

/-- The slot where a node must be; the header has no slot. -/
def dereference : Option Slot → Except Fault Slot
  | some slot => .ok slot
  | none => .error (.dereference .header)

/-- The item at a position, or `none` at the end. -/
def get (t : Tree key) (p : Position) : Except Fault (Option α) := do
  match ← t.own p with
  | none => return none
  | some slot => return some (← t.itemAt slot)

/-- The slot on a side of the one given. A node that hangs nowhere has no links
    to follow. -/
def beside (t : Tree key) (side : Side) (slot : Slot) : Except Fault (Option Slot) := do
  let _ ← t.itemAt slot
  match t.shape.neighbour side slot with
  | some neighbour => return neighbour
  | none => .error (.dereference .nil)

/-- The slot after the one given; the last item is followed by the end. -/
def successor (t : Tree key) : Option Slot → Except Fault (Option Slot)
  | none => .error .pastEnd
  | some slot => t.beside .right slot

/-- The slot before the one given; the end is preceded by the last item. -/
def predecessor (t : Tree key) : Option Slot → Except Fault Slot
  | none => if t.isEmpty then .error .emptyEnd else dereference t.rightmost
  | some slot => do
    match ← t.beside .left slot with
    | some before => return before
    | none => .error .beforeFirst

def next (t : Tree key) (p : Position) : Except Fault Position := do
  return t.position (← t.successor (← t.own p))

def prev (t : Tree key) (p : Position) : Except Fault Position := do
  return t.position (some (← t.predecessor (← t.own p)))

def first? (t : Tree key) : Except Fault (Option α) :=
  t.get t.start

def last? (t : Tree key) : Except Fault (Option α) := do
  if t.isEmpty then return none
  else return some (← t.itemAt (← dereference t.rightmost))

def items (t : Tree key) : Except Fault (List α) :=
  t.shape.slots.mapM t.itemAt

end Tree

end RedBlack
