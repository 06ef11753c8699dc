import RedBlack.Shape.Rotation

namespace RedBlack

/-- Where a new node goes. -/
inductive Place where
  /-- It becomes the root of an empty tree. -/
  | root
  /-- It becomes a child of the node in a slot. -/
  | under (parent : Slot) (side : Side)
  deriving DecidableEq, Repr

/-- What a repair did on one level. -/
structure Round where
  rotations : Nat := 0
  /-- Whether a red sibling had to be raised before anything else. -/
  raised : Bool := false
  deriving DecidableEq, Repr

/-- A shape after a repair, and the work that the repair took. -/
structure Repaired where
  shape : Shape
  /-- The levels worked on, from the lowest up. -/
  rounds : List Round := []
  deriving Repr

namespace Repaired

def rotations (r : Repaired) : Nat :=
  r.rounds.foldr (fun round total => round.rotations + total) 0

end Repaired

namespace Path

/-- Mends the colours above a red subtree whose parent may be red too, which is
    the only rule that a new red leaf can break. A red uncle hands the defect on
    to the grandparent; a black one lets one or two rotations end it. The root
    comes out black. -/
def repairRed : Path → Shape → Except Fault Repaired
  | [], x => return { shape := ← x.recolor .black }
  | [p], x =>
    if p.color = .black then return { shape := ← (p.close x).recolor .black }
    else .error (.dereference .header)
  | p :: g :: up, x =>
    if p.color = .black then
      return { shape := ← (fill (p :: g :: up) x).recolor .black }
    else if g.sibling.isRed then do
      let parent ← (p.close x).recolor .black
      let uncle ← g.sibling.recolor .black
      let above ← repairRed up (Frame.close { g with color := .red, sibling := uncle } parent)
      return { above with rounds := {} :: above.rounds }
    else do
      let (lower, turns) ←
        if p.side = g.side then pure (p.close x, 0)
        else do pure (← (p.close x).rotate g.side, 1)
      let parent ← lower.recolor .black
      let top ← (Frame.close { g with color := .red } parent).rotate g.side.opposite
      return { shape := ← (fill up top).recolor .black, rounds := [{ rotations := turns + 1 }] }

end Path

namespace Shape

def leaf (color : Color) (slot : Slot) : Shape :=
  node color nil slot nil

/-- Hangs a new node into a place and mends the colours. The place must be
    free. -/
def attach (slot : Slot) (place : Place) (t : Shape) : Except Fault Repaired :=
  match place with
  | .root =>
    match t with
    | nil => Path.repairRed [] (leaf .red slot)
    | node .. => .error .rootTaken
  | .under parent side =>
    match t.zoom parent [] with
    | some (path, node color left s right) =>
      match side, left, right with
      | .left, nil, right => Path.repairRed (⟨.left, color, s, right⟩ :: path) (leaf .red slot)
      | .right, left, nil => Path.repairRed (⟨.right, color, s, left⟩ :: path) (leaf .red slot)
      | .left, node .., _ => .error .leftTaken
      | .right, _, node .. => .error .rightTaken
    | _ => .error (.dereference .nil)

end Shape

end RedBlack
