import RedBlack.Shape.Pruning
import RedBlack.Tree.Insertion

namespace RedBlack

namespace Shape

/-- Releases the slots of a subtree, the last one in order first, without
    restoring any balance. This is how a tree is emptied as a whole. -/
def releaseAll {α : Type} : Shape → Store α → Except Fault (Store α)
  | nil, store => return store
  | node _ left slot right, store => do
    let store ← right.releaseAll store
    match ← store.deallocate slot with
    | (some _, store) => left.releaseAll store
    | (none, _) => .error (.neverConstructed slot)

end Shape

namespace Tree

variable {α κ : Type} {key : α → κ}

/-- The ends once the node in a slot is gone. A node with two children is no
    end; one that is an end leaves its role to the outermost item of its only
    subtree, or else to its parent. -/
def endsWithout (t : Tree key) (slot : Slot) : Option Slot × Option Slot :=
  match t.shape.zoom slot [] with
  | some (path, .node _ left _ right) =>
    if left ≠ .nil ∧ right ≠ .nil then (t.leftmost, t.rightmost)
    else
      (if t.leftmost = some slot then path.extremeWithout .left right else t.leftmost,
        if t.rightmost = some slot then path.extremeWithout .right left else t.rightmost)
  | _ => (t.leftmost, t.rightmost)

/-- Takes the node in a slot out of the shape and restores the balance. -/
def detach (slot : Slot) (t : Tree key) : Except Fault (Tree key) := do
  let repaired ← t.shape.unlink slot
  let ends := t.endsWithout slot
  return { t with shape := repaired.shape, leftmost := ends.1, rightmost := ends.2 }

/-- Erases the item in a slot: its node is unlinked, the balance restored and
    the slot released. No other item moves. -/
def eraseSlot (slot : Slot) : Op key α := do
  .step fun t => do
    let t ← t.detach slot
    return ((), { t with size := ← checkedSub t.size 1 })
  release slot

/-- Erases the item at a position; gives it together with the position after
    it. -/
def erase (p : Position) : Op key (α × Position) := do
  match ← owned p with
  | none => .fail .erasingEnd
  | some slot =>
    let after ← .look fun t => t.successor (some slot)
    let item ← eraseSlot slot
    return (item, ← positionOf after)

def remove (p : Position) : Op key α := do
  return (← erase p).1

/-- Releases all items at once. -/
def clear : Op key Unit := do
  let size ← .look fun t => .ok t.size
  if 0 < size then .note (.tearingDown size)
  .step fun t => do
    let store ← t.shape.releaseAll t.store
    return ((), { t with shape := .nil, leftmost := none, rightmost := none, size := 0, store })

/-- Erases items from a given slot on, up to the one in `last`; the end of the
    tree must not come before that. No more than `fuel` steps are made: one for
    each item, and one that may fail, are enough. -/
def eraseUpTo (last : Option Slot) : Nat → Option Slot → Op key Unit
  | _, none => if last = none then return () else .fail .reversedRange
  | 0, some _ => return ()
  | fuel + 1, some slot =>
    if last = some slot then return ()
    else do
      let after ← .look fun t => t.successor (some slot)
      let _ ← eraseSlot slot
      eraseUpTo last fuel after

/-- Erases the items of a range and gives its end. The range of all items is
    torn down as a whole. -/
def eraseRange (first last : Position) : Op key Position := do
  let lower ← owned first
  let upper ← owned last
  let t ← .look .ok
  if lower = t.leftmost ∧ upper = none then
    clear
    positionOf none
  else
    eraseUpTo upper (t.size + 1) lower
    return last

/-- Erases the items with a key equivalent to `k`; says how many there were. -/
def eraseKey (k : κ) : Op key Nat := do
  let (first, last) ← .ask fun t => t.equalRange k
  let before ← .look fun t => .ok t.size
  let _ ← eraseRange first last
  .look fun t => checkedSub before t.size

/-- Takes the first item out. -/
def popFirst : Op key (Option α) := do
  let t ← .look .ok
  if t.isEmpty then return none
  else return some (← eraseSlot (← .look fun t => dereference t.leftmost))

/-- Takes the last item out. -/
def popLast : Op key (Option α) := do
  let t ← .look .ok
  if t.isEmpty then return none
  else return some (← eraseSlot (← .look fun t => dereference t.rightmost))

/-- Gives all slots back; what is left of the tree is its store. -/
def dispose (t : Tree key) : Except Fault (Store α) :=
  t.shape.releaseAll t.store

end Tree

end RedBlack
