import RedBlack.Tree.Basic

namespace RedBlack

/-- Which of the places for a key among equivalent ones is meant. -/
inductive Bound where
  /-- Before all items with an equivalent key. -/
  | lower
  /-- After all items with an equivalent key. -/
  | upper
  deriving DecidableEq, Repr

/-- The nodes met on a walk down, the last one first, each with the side taken
    there. -/
abbrev Trail := List (Slot × Side)

namespace Shape

/-- Walks down to a missing child and puts the nodes met before those given.
    Searches differ only in the decision at each node, which takes one
    comparison, and in what is read off the nodes met. -/
def descend {κ : Type} (turn : Slot → Query κ Side) : Shape → Trail → Query κ Trail
  | nil, trail => pure trail
  | node _ left slot right, trail => do
    match ← turn slot with
    | .left => left.descend turn ((slot, .left) :: trail)
    | .right => right.descend turn ((slot, .right) :: trail)

end Shape

namespace Tree

variable {α κ : Type} {key : α → κ}

/-- The side of the node in a slot on which the place for a key lies. -/
def turn (t : Tree key) (bound : Bound) (k : κ) (slot : Slot) : Query κ Side := do
  let stored ← t.keyAt slot
  match bound with
  | .lower => return if ← Query.compare t.less stored k then .right else .left
  | .upper => return if ← Query.compare t.less k stored then .left else .right

/-- The walk down to the place for a key. -/
def trail (t : Tree key) (bound : Bound) (k : κ) : Query κ Trail :=
  t.shape.descend (t.turn bound k) []

/-- The slot right after the place for a key: that of the last node left to the
    left. -/
def bound (t : Tree key) (bound : Bound) (k : κ) : Query κ (Option Slot) := do
  let trail ← t.trail bound k
  return (trail.find? fun step => step.2 = .left).map Prod.fst

/-- The first item whose key is not less than `k`. -/
def lowerBound (t : Tree key) (k : κ) : Query κ Position := do
  return t.position (← t.bound .lower k)

/-- The first item whose key is greater than `k`. -/
def upperBound (t : Tree key) (k : κ) : Query κ Position := do
  return t.position (← t.bound .upper k)

/-- The range of the items with a key equivalent to `k`. -/
def equalRange (t : Tree key) (k : κ) : Query κ (Position × Position) := do
  let first ← t.lowerBound k
  let last ← t.upperBound k
  return (first, last)

/-- The first item with a key equivalent to `k`, or the end if there is none. -/
def find (t : Tree key) (k : κ) : Query κ Position := do
  match ← t.bound .lower k with
  | none => return t.finish
  | some slot =>
    if ← Query.compare t.less k (← t.keyAt slot) then return t.finish
    else return t.position (some slot)

/-- Whether some item has a key equivalent to `k`. -/
def contains (t : Tree key) (k : κ) : Query κ Bool := do
  return !(← t.find k).isEnd

end Tree

end RedBlack
