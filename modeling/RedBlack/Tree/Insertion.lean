import RedBlack.Action
import RedBlack.Tree.Vacancy

namespace RedBlack

/-- What an operation that builds its item came to. -/
structure Built (ε ρ : Type) where
  /-- How often the constructor was called. -/
  calls : Nat
  result : Except (Failure ε) ρ
  deriving Repr

/-- Calls a constructor that was called `calls` times before. The operations
    call it here only, so that the count rises with each call. -/
def Built.call {ε α : Type} (build : Unit → Except ε α) (calls : Nat) : Built ε α :=
  { calls := calls + 1, result := (build ()).mapError .construct }

namespace Built

variable {ε α : Type} {build : Unit → Except ε α} {item : α} {error : ε}

theorem call_of_ok (h : build () = .ok item) (calls : Nat) :
    call build calls = { calls := calls + 1, result := .ok item } := by
  rw [call, h]
  rfl

theorem call_of_error (h : build () = .error error) (calls : Nat) :
    call build calls = { calls := calls + 1, result := .error (.construct error) } := by
  rw [call, h]
  rfl

end Built

namespace Tree

variable {α κ ε : Type} {key : α → κ}

abbrev Op (key : α → κ) (ρ : Type) := Action (Tree key) κ ρ

/-- The ends once a node hangs in a place: an end gives way to a new child on
    its outer side. -/
def endsWith (t : Tree key) (slot : Slot) : Place → Option Slot × Option Slot
  | .root => (some slot, some slot)
  | .under parent .left => (if t.leftmost = some parent then some slot else t.leftmost, t.rightmost)
  | .under parent .right => (t.leftmost, if t.rightmost = some parent then some slot else t.rightmost)

/-- Hangs the node in a slot into a place and restores the balance. -/
def attach (slot : Slot) (place : Place) (t : Tree key) : Except Fault (Tree key) := do
  let repaired ← t.shape.attach slot place
  let ends := t.endsWith slot place
  return { t with shape := repaired.shape, leftmost := ends.1, rightmost := ends.2, size := t.size + 1 }

def allocate : Op key (Except AllocError Slot) :=
  .step fun t => do
    let (slot, store) ← t.store.allocate
    return (slot, { t with store })

def construct (slot : Slot) (item : α) : Op key Unit :=
  .step fun t => do
    return ((), { t with store := ← t.store.construct slot item })

/-- Gives a slot back that never got an item. -/
def giveBack (slot : Slot) : Op key Unit :=
  .step fun t => do
    let (_, store) ← t.store.deallocate slot
    return ((), { t with store })

/-- Releases the slot of a node that hangs nowhere, and gives its item. -/
def release (slot : Slot) : Op key α :=
  .step fun t => do
    match ← t.store.deallocate slot with
    | (some item, store) => return (item, { t with store })
    | (none, _) => .error (.neverConstructed slot)

/-- Hangs the node in a slot into a place and gives its position. -/
def hang (slot : Slot) (place : Place) : Op key Position :=
  .step fun t => do
    let t ← t.attach slot place
    return (t.position (some slot), t)

/-- A position of the tree as it is now. -/
def positionOf (slot : Option Slot) : Op key Position :=
  .look fun t => .ok (t.position slot)

/-- The slot of a position, which must be one of the tree as it is now. -/
def owned (p : Position) : Op key (Option Slot) :=
  .look fun t => t.own p

/-- Changes the item at a position, if it is not the end; the key must stay as
    it is. -/
def modify (p : Position) (change : α → α) : Op key Unit :=
  .step fun t => do
    match ← t.own p with
    | none => return ((), t)
    | some slot =>
      let item ← t.itemAt slot
      return ((), { t with store := ← t.store.write slot (change item) })

/-- The answer of an operation on a path that reports no errors: running out of
    slots stops it. -/
def demand {ρ : Type} : Except AllocError ρ → Op key ρ
  | .ok answer => return answer
  | .error _ => .fail .allocationFailed

/-- Puts an item into a new slot and hangs that into a place. The plain
    operations come here only once a place is found, so an item in the way costs
    no slot. -/
def insertAt (item : α) (place : Place) : Op key (Except AllocError Position) := do
  match ← allocate with
  | .error error => return .error error
  | .ok slot =>
    construct slot item
    return .ok (← hang slot place)

/-- Inserts an item where a search for unique keys finds a place; says where the
    item is, or the one in its way, and whether it was inserted. -/
def insertUniqueBy (search : Tree key → κ → Query κ Vacancy) (item : α) :
    Op key (Except AllocError (Position × Bool)) := do
  match ← Action.ask fun t => search t (key item) with
  | .occupied slot => return .ok (← positionOf (some slot), false)
  | .vacant place => return (← insertAt item place).map fun p => (p, true)

/-- Inserts an item where a search finds a place. -/
def insertEqualBy (search : Tree key → κ → Query κ Place) (item : α) :
    Op key (Except AllocError Position) := do
  let place ← Action.ask fun t => search t (key item)
  insertAt item place

/-- Asks for a slot and builds an item in it, before any place is searched for.
    A slot whose item cannot be built is given back, and so is one that an item
    in the way leaves without use. -/
def buildNode (build : Unit → Except ε α) : Op key (Built ε (Slot × α)) := do
  match ← allocate with
  | .error error => return { calls := 0, result := .error (.alloc error) }
  | .ok slot =>
    match Built.call build 0 with
    | { calls, result := .error failure } =>
      giveBack slot
      return { calls, result := .error failure }
    | { calls, result := .ok item } =>
      construct slot item
      return { calls, result := .ok (slot, item) }

/-- Builds an item in its slot and hangs that where a search for unique keys
    finds a place; with an item in the way the slot is released again. -/
def insertUniqueWithBy (search : Tree key → κ → Query κ Vacancy) (build : Unit → Except ε α) :
    Op key (Built ε (Position × Bool)) := do
  let built ← buildNode build
  match built.result with
  | .error failure => return { calls := built.calls, result := .error failure }
  | .ok (slot, item) =>
    match ← Action.ask fun t => search t (key item) with
    | .occupied other =>
      let _ ← release slot
      return { calls := built.calls, result := .ok (← positionOf (some other), false) }
    | .vacant place =>
      return { calls := built.calls, result := .ok (← hang slot place, true) }

/-- Builds an item in its slot and hangs that where a search finds a place. -/
def insertEqualWithBy (search : Tree key → κ → Query κ Place) (build : Unit → Except ε α) :
    Op key (Built ε Position) := do
  let built ← buildNode build
  match built.result with
  | .error failure => return { calls := built.calls, result := .error failure }
  | .ok (slot, item) =>
    let place ← Action.ask fun t => search t (key item)
    return { calls := built.calls, result := .ok (← hang slot place) }

/-- Inserts an item unless one with an equivalent key is there. -/
def insertUnique (item : α) : Op key (Except AllocError (Position × Bool)) :=
  insertUniqueBy uniquePlace item

/-- Inserts an item after all those with an equivalent key. -/
def insertEqual (item : α) : Op key (Except AllocError Position) :=
  insertEqualBy (equalPlace · .upper) item

/-- Inserts an item unless one with an equivalent key is there, and tries the
    place right before the hint first. -/
def insertUniqueHint (hint : Position) (item : α) : Op key (Except AllocError (Position × Bool)) := do
  let slot ← owned hint
  insertUniqueBy (hintedUniquePlace · slot) item

/-- Inserts an item at the legal place nearest to the one right before the
    hint. -/
def insertEqualHint (hint : Position) (item : α) : Op key (Except AllocError Position) := do
  let slot ← owned hint
  insertEqualBy (hintedEqualPlace · slot) item

/-- The operation `insertUnique` on an item that is built in its slot. -/
def insertUniqueWith (build : Unit → Except ε α) : Op key (Built ε (Position × Bool)) :=
  insertUniqueWithBy uniquePlace build

/-- The operation `insertEqual` on an item that is built in its slot. -/
def insertEqualWith (build : Unit → Except ε α) : Op key (Built ε Position) :=
  insertEqualWithBy (equalPlace · .upper) build

/-- The operation `insertUniqueHint` on an item that is built in its slot. -/
def insertUniqueHintWith (hint : Position) (build : Unit → Except ε α) :
    Op key (Built ε (Position × Bool)) := do
  let slot ← owned hint
  insertUniqueWithBy (hintedUniquePlace · slot) build

/-- The operation `insertEqualHint` on an item that is built in its slot. -/
def insertEqualHintWith (hint : Position) (build : Unit → Except ε α) : Op key (Built ε Position) := do
  let slot ← owned hint
  insertEqualWithBy (hintedEqualPlace · slot) build

end Tree

end RedBlack
