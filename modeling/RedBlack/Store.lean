import RedBlack.Arena

namespace RedBlack

/-- One call to a store, as a record keeps it. -/
inductive StoreCall where
  | allocated (slot : Slot)
  | refused
  | constructed (slot : Slot)
  | deallocated (slot : Slot)
  /-- The slot was released before it got an item. -/
  | deallocatedUnbuilt (slot : Slot)
  deriving DecidableEq, Repr

inductive Store (α : Type) where
  | arena (base : Arena α)
  /-- Counts the slots handed out and the slots released. -/
  | counting (below : Store α) (allocations deallocations : Nat)
  /-- Hands out `remaining` more slots; released slots do not count back. -/
  | limited (below : Store α) (remaining : Nat)
  /-- Keeps the calls made to it, the first one first. -/
  | recorded (below : Store α) (calls : Array StoreCall)
  deriving Repr

namespace Store

variable {α : Type}

/-- The budget of a limited store that nobody set a limit for. -/
def unlimited : Nat := 0xFFFFFFFFFFFFFFFF

def base : Store α → Arena α
  | arena base => base
  | counting below _ _ => below.base
  | limited below _ => below.base
  | recorded below _ => below.base

/-- How many slots were ever handed out, free ones included. -/
def capacity (s : Store α) : Nat :=
  s.base.capacity

/-- Asks for a slot. Every layer passes the request on to the store below it,
    and none changes which slot is handed out; one that has used up its budget
    refuses. A refusal changes no count and no budget. -/
def allocate : Store α → Except Fault (Except AllocError Slot × Store α)
  | arena base => do
    let (slot, base) ← base.allocate
    return (slot, arena base)
  | counting below allocations deallocations => do
    match ← below.allocate with
    | (.ok slot, below) => return (.ok slot, counting below (allocations + 1) deallocations)
    | (.error error, below) => return (.error error, counting below allocations deallocations)
  | limited below remaining =>
    if remaining = 0 then
      return (.error .noSlot, limited below remaining)
    else do
      match ← below.allocate with
      | (.ok slot, below) => return (.ok slot, limited below (remaining - 1))
      | (.error error, below) => return (.error error, limited below remaining)
  | recorded below calls => do
    match ← below.allocate with
    | (.ok slot, below) => return (.ok slot, recorded below (calls.push (.allocated slot)))
    | (.error error, below) => return (.error error, recorded below (calls.push .refused))

/-- Puts an item into a slot that was handed out for it. -/
def construct (slot : Slot) (item : α) : Store α → Except Fault (Store α)
  | arena base => do
    return arena (← base.construct slot item)
  | counting below allocations deallocations => do
    return counting (← below.construct slot item) allocations deallocations
  | limited below remaining => do
    return limited (← below.construct slot item) remaining
  | recorded below calls => do
    return recorded (← below.construct slot item) (calls.push (.constructed slot))

/-- Takes a slot back, with the item it held if it ever got one. -/
def deallocate (slot : Slot) : Store α → Except Fault (Option α × Store α)
  | arena base => do
    let (item, base) ← base.deallocate slot
    return (item, arena base)
  | counting below allocations deallocations => do
    let (item, below) ← below.deallocate slot
    return (item, counting below allocations (deallocations + 1))
  | limited below remaining => do
    let (item, below) ← below.deallocate slot
    return (item, limited below remaining)
  | recorded below calls => do
    match ← below.deallocate slot with
    | (some item, below) => return (some item, recorded below (calls.push (.deallocated slot)))
    | (none, below) => return (none, recorded below (calls.push (.deallocatedUnbuilt slot)))

def read (s : Store α) (slot : Slot) : Except Fault α :=
  s.base.read slot

def write (slot : Slot) (item : α) : Store α → Except Fault (Store α)
  | arena base => do
    return arena (← base.write slot item)
  | counting below allocations deallocations => do
    return counting (← below.write slot item) allocations deallocations
  | limited below remaining => do
    return limited (← below.write slot item) remaining
  | recorded below calls => do
    return recorded (← below.write slot item) calls

/-- How many slots the top layer saw handed out and not released, if it
    counts. -/
def live? : Store α → Option (Except Fault Nat)
  | counting _ allocations deallocations => some (checkedSub allocations deallocations)
  | _ => none

/-- Sets what is left of the budget of the top layer; other stores have none. -/
def setBudget (budget : Nat) : Store α → Store α
  | limited below _ => limited below budget
  | s => s

/-- Takes the top layer off. -/
def peel : Store α → Store α
  | arena base => arena base
  | counting below _ _ => below
  | limited below _ => below
  | recorded below _ => below

/-- The calls that a top layer recorded. -/
def calls : Store α → Array StoreCall
  | recorded _ calls => calls
  | _ => #[]

/-- Starts the record of the top layer anew. -/
def clearCalls : Store α → Store α
  | recorded below _ => recorded below #[]
  | s => s

end Store

end RedBlack
