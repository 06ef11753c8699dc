import RedBlack.Shape.Growth
import RedBlack.Tree.Search

namespace RedBlack

/-- What a search for a place under unique keys comes to: a missing child, where
    the new node is to hang, or an item that is in the way. -/
inductive Vacancy where
  | vacant (place : Place)
  /-- The item in the slot has an equivalent key. -/
  | occupied (slot : Slot)
  deriving DecidableEq, Repr

namespace Tree

variable {α κ : Type} {key : α → κ}

/-- The place between two neighbours: one of them always lacks the child that is
    needed. -/
def gap (t : Tree key) (before after : Slot) : Except Fault Place :=
  match t.shape.vacant? .right before with
  | some true => .ok (.under before .right)
  | some false => .ok (.under after .left)
  | none => .error (.dereference .nil)

/-- The place for a key that is to be the only one of its class. The item before
    the place is compared once more, to see whether it is equivalent; in front
    of the first item there is none. -/
def uniquePlace (t : Tree key) (k : κ) : Query κ Vacancy := do
  match ← t.trail .upper k with
  | [] => return .vacant .root
  | (parent, side) :: _ =>
    if side = .left ∧ t.leftmost = some parent then return .vacant (.under parent .left)
    else
      let before ←
        match side with
        | .left => t.predecessor (some parent)
        | .right => pure parent
      if ← Query.compare t.less (← t.keyAt before) k then return .vacant (.under parent side)
      else return .occupied before

/-- The place for a key before or after all equivalent ones. The side below the
    last node met is settled by one more comparison there. -/
def equalPlace (t : Tree key) (bound : Bound) (k : κ) : Query κ Place := do
  match ← t.trail bound k with
  | [] => return .root
  | (parent, _) :: _ => return .under parent (← t.turn bound k parent)

/-- The place for a key that is to be the only one of its class. The hint, which
    is `none` for the end, names the item before which the new one is likely to
    go; where the neighbours of the hint agree, one or two comparisons stand in
    for the walk. -/
def hintedUniquePlace (t : Tree key) (hint : Option Slot) (k : κ) : Query κ Vacancy := do
  match hint with
  | none =>
    if t.isEmpty then t.uniquePlace k
    else
      let last ← dereference t.rightmost
      if ← Query.compare t.less (← t.keyAt last) k then return .vacant (.under last .right)
      else t.uniquePlace k
  | some slot =>
    let stored ← t.keyAt slot
    if ← Query.compare t.less k stored then
      if t.leftmost = some slot then return .vacant (.under slot .left)
      else
        let before ← t.predecessor (some slot)
        if ← Query.compare t.less (← t.keyAt before) k then return .vacant (← t.gap before slot)
        else t.uniquePlace k
    else if ← Query.compare t.less stored k then
      if t.rightmost = some slot then return .vacant (.under slot .right)
      else
        let after ← dereference (← t.successor (some slot))
        if ← Query.compare t.less k (← t.keyAt after) then return .vacant (← t.gap slot after)
        else t.uniquePlace k
    else return .occupied slot

/-- The legal place for a key nearest to the one just before the hint, which is
    `none` for the end. -/
def hintedEqualPlace (t : Tree key) (hint : Option Slot) (k : κ) : Query κ Place := do
  match hint with
  | none =>
    if t.isEmpty then t.equalPlace .upper k
    else
      let last ← dereference t.rightmost
      if ← Query.compare t.less k (← t.keyAt last) then t.equalPlace .upper k
      else return .under last .right
  | some slot =>
    if ← Query.compare t.less (← t.keyAt slot) k then
      if t.rightmost = some slot then return .under slot .right
      else
        let after ← dereference (← t.successor (some slot))
        if ← Query.compare t.less (← t.keyAt after) k then t.equalPlace .lower k
        else return ← t.gap slot after
    else
      if t.leftmost = some slot then return .under slot .left
      else
        let before ← t.predecessor (some slot)
        if ← Query.compare t.less k (← t.keyAt before) then t.equalPlace .upper k
        else return ← t.gap before slot

end Tree

end RedBlack
