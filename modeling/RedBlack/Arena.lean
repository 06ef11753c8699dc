import RedBlack.Failure
import RedBlack.Fault

namespace RedBlack

/-- What a slot of an arena holds. A slot is handed out, then gets its item,
    then is released, and a released slot is the next one to be handed out
    again. -/
inductive Cell (α : Type) where
  /-- An item. -/
  | built (item : α)
  /-- Nothing yet: the slot is handed out and waits for its item. -/
  | reserved
  /-- Nothing: the slot is free, and `next` is the free slot after it. -/
  | free (next : Option Slot)
  deriving Repr

structure Arena (α : Type) where
  /-- The slots ever handed out, in the order of their numbers. -/
  cells : Array (Cell α)
  /-- The first free slot. -/
  free : Option Slot
  deriving Repr

namespace Arena

variable {α : Type}

def empty : Arena α where
  cells := #[]
  free := none

/-- How many slots were ever handed out, free ones included. -/
def capacity (a : Arena α) : Nat :=
  a.cells.size

def cell (a : Arena α) (slot : Slot) : Except Fault (Cell α) :=
  match a.cells[slot]? with
  | some cell => .ok cell
  | none => .error (.outOfBounds a.cells.size slot)

/-- Hands out the slot released last, or a new one if none is free. Where the
    numbers for slots are used up the arena reports that and stays as it is. -/
def allocate (a : Arena α) : Except Fault (Except AllocError Slot × Arena α) :=
  match a.free with
  | some slot =>
    match a.cell slot with
    | .ok (.free next) => .ok (.ok slot, { cells := a.cells.setIfInBounds slot .reserved, free := next })
    | .ok _ => .error .brokenFreeList
    | .error fault => .error fault
  | none =>
    if a.cells.size < Handle.maxSlots then
      .ok (.ok a.cells.size, { a with cells := a.cells.push .reserved })
    else
      .ok (.error .noSlot, a)

/-- Puts an item into a slot that was handed out for it. -/
def construct (a : Arena α) (slot : Slot) (item : α) : Except Fault (Arena α) :=
  match a.cell slot with
  | .ok .reserved => .ok { a with cells := a.cells.setIfInBounds slot (.built item) }
  | .ok _ => .error .notReserved
  | .error fault => .error fault

/-- Puts a slot in front of the free ones. -/
def release (a : Arena α) (slot : Slot) : Arena α where
  cells := a.cells.setIfInBounds slot (.free a.free)
  free := some slot

/-- Takes a slot back, with the item it held if it ever got one. -/
def deallocate (a : Arena α) (slot : Slot) : Except Fault (Option α × Arena α) :=
  match a.cell slot with
  | .ok (.built item) => .ok (some item, a.release slot)
  | .ok .reserved => .ok (none, a.release slot)
  | .ok (.free _) => .error (.doubleFree slot)
  | .error fault => .error fault

def read (a : Arena α) (slot : Slot) : Except Fault α :=
  match a.cell slot with
  | .ok (.built item) => .ok item
  | .ok _ => .error (.noNode slot)
  | .error fault => .error fault

def write (a : Arena α) (slot : Slot) (item : α) : Except Fault (Arena α) :=
  match a.cell slot with
  | .ok (.built _) => .ok { a with cells := a.cells.setIfInBounds slot (.built item) }
  | .ok _ => .error (.noNode slot)
  | .error fault => .error fault

end Arena

end RedBlack
