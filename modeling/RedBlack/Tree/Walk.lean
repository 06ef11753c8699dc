import RedBlack.Tree.Removal

namespace RedBlack

/-- A walk over the items from one slot up to another; `none` is the end of the
    tree. It looks at an unchanged tree and closes in from both sides. Of each
    item it gives what `view` shows. -/
structure Walk {α κ : Type} (key : α → κ) (β : Type) where
  tree : Tree key
  view : α → β
  /-- Where the next item is. -/
  front : Option Slot
  /-- Where the items stop. -/
  back : Option Slot
  /-- How many items are left, if that is known. -/
  remaining : Option Nat

namespace Walk

variable {α κ β γ : Type} {key : α → κ}

/-- The same walk with something else shown of each item. -/
def map (f : β → γ) (w : Walk key β) : Walk key γ :=
  { w with view := f ∘ w.view }

/-- What is left after one more item. -/
def countDown : Option Nat → Except Fault (Option Nat)
  | none => return none
  | some remaining => return some (← checkedSub remaining 1)

/-- The first item left, and the walk without it. -/
def forward (w : Walk key β) : Except Fault (Option β × Walk key β) :=
  if w.front = w.back then return (none, w)
  else do
    let front ← w.tree.successor w.front
    let remaining ← countDown w.remaining
    let item ← w.tree.itemAt (← Tree.dereference w.front)
    return (some (w.view item), { w with front, remaining })

/-- The last item left, and the walk without it. -/
def backward (w : Walk key β) : Except Fault (Option β × Walk key β) :=
  if w.front = w.back then return (none, w)
  else do
    let back ← w.tree.predecessor w.back
    let remaining ← countDown w.remaining
    let item ← w.tree.itemAt back
    return (some (w.view item), { w with back := some back, remaining })

/-- The outermost item left on a side, and the walk without it. -/
def advance (side : Side) (w : Walk key β) : Except Fault (Option β × Walk key β) :=
  match side with
  | .left => w.forward
  | .right => w.backward

/-- Bounds on how many items are left. -/
def bounds (w : Walk key β) : Nat × Nat :=
  match w.remaining with
  | some remaining => (remaining, remaining)
  | none => if w.front = w.back then (0, 0) else (1, w.tree.size)

/-- The items left as one side gives them, but no more than `limit`, and the
    walk after them. -/
def take (side : Side) : Nat → Walk key β → Except Fault (List β × Walk key β)
  | 0, w => return ([], w)
  | limit + 1, w => do
    match ← w.advance side with
    | (none, w) => return ([], w)
    | (some item, w) =>
      let (items, w) ← take side limit w
      return (item :: items, w)

/-- All items left as one side gives them. No walk has more items than its tree,
    so one step more than that always comes to the end. -/
def rest (side : Side) (w : Walk key β) : Except Fault (List β × Walk key β) :=
  w.take side (w.tree.size + 1)

end Walk

/-- A tree that is taken apart from its ends: each item that is given has been
    taken out of the tree. -/
structure Drain {α κ : Type} (key : α → κ) where
  tree : Tree key

namespace Drain

variable {α κ : Type} {key : α → κ}

/-- An operation on the tree of a drain. -/
def onTree {ρ : Type} (op : Tree.Op key ρ) : Action (Drain key) κ ρ :=
  op.within Drain.tree fun tree _ => { tree }

/-- Takes out the outermost item left on a side. -/
def advance : Side → Action (Drain key) κ (Option α)
  | .left => onTree Tree.popFirst
  | .right => onTree Tree.popLast

/-- How many items are left, as both a lower and an upper bound. -/
def bounds (d : Drain key) : Nat × Nat :=
  (d.tree.size, d.tree.size)

/-- Takes out the items left as one side gives them, but no more than
    `limit`. -/
def take (side : Side) : Nat → Action (Drain key) κ (List α)
  | 0 => return []
  | limit + 1 => do
    match ← advance side with
    | none => return []
    | some item => return item :: (← take side limit)

/-- Takes out all items left as one side gives them. -/
def rest (side : Side) : Action (Drain key) κ (List α) := do
  take side (← .look fun d => .ok d.tree.size)

end Drain

namespace Tree

variable {α κ : Type} {key : α → κ}

/-- A walk over all items. -/
def walk (t : Tree key) : Walk key α where
  tree := t
  view := id
  front := t.leftmost
  back := none
  remaining := some t.size

/-- A walk over the items from one position up to another. -/
def walkRange (t : Tree key) (first last : Position) : Except Fault (Walk key α) := do
  let front ← t.own first
  let back ← t.own last
  return { tree := t, view := id, front, back, remaining := none }

/-- A walk over the items with a key equivalent to `k`. -/
def walkEqual (t : Tree key) (k : κ) : Query κ (Walk key α) := do
  let (first, last) ← t.equalRange k
  t.walkRange first last

/-- How many items have a key equivalent to `k`. -/
def count (t : Tree key) (k : κ) : Query κ Nat := do
  let (items, _) ← (← t.walkEqual k).rest .left
  return items.length

/-- Hands the tree over to be taken apart. -/
def drain (t : Tree key) : Drain key where
  tree := t

end Tree

end RedBlack
