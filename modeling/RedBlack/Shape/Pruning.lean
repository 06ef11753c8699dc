import RedBlack.Shape.Growth

namespace RedBlack

namespace Frame

/-- What became of a lack of one black node below a frame. -/
inductive Settlement where
  /-- The lack is made good. -/
  | settled (t : Shape) (rotations : Nat)
  /-- The whole subtree now lacks one black node. -/
  | short (t : Shape)
  deriving Repr

/-- Deals with a subtree that lacks one black node and whose sibling is black. A
    sibling with a red child lends a node by one or two rotations; one without
    turns red, and the lack passes to the parent. -/
def settle (f : Frame) (x : Shape) : Except Fault Settlement :=
  match f.sibling with
  | .nil => .error (.dereference .nil)
  | w@(.node ..) =>
    let near := w.child f.side
    let far := w.child f.side.opposite
    if !near.isRed && !far.isRed then
      return .short (Frame.close { f with sibling := ← w.recolor .red } x)
    else do
      let (w, turns) ←
        if far.isRed then pure (w, 0)
        else do
          let sibling ← (← w.recolorChild f.side .black).recolor .red
          pure (← sibling.rotate f.side.opposite, 1)
      let lender ← (← w.recolor f.color).recolorChild f.side.opposite .black
      let t ← (Frame.close { f with color := .black, sibling := lender } x).rotate f.side
      return .settled t (turns + 1)

end Frame

namespace Path

/-- Makes good the lack of one black node in the subtree at the end of a path. A
    red subtree turns black; a missing one counts as black and is left alone. A
    red sibling is raised first, which makes the parent red and the new sibling
    black. -/
def repairShort : Path → Shape → Except Fault Repaired
  | [], x => .ok { shape := x.paint .black }
  | f :: up, x =>
    if x.isRed then .ok { shape := fill (f :: up) (x.paint .black) }
    else
      match f.sibling with
      | .node .red left slot right => do
        let raised := Shape.node .black left slot right
        let lower : Frame := { f with color := .red, sibling := raised.child f.side }
        let upper : Frame := ⟨f.side, .black, slot, raised.child f.side.opposite⟩
        match ← lower.settle x with
        | .settled t rotations =>
          return { shape := fill (upper :: up) t, rounds := [{ rotations := rotations + 1, raised := true }] }
        | .short t =>
          return { shape := fill (upper :: up) (t.paint .black), rounds := [{ rotations := 1, raised := true }] }
      | _ => do
        match ← f.settle x with
        | .settled t rotations => return { shape := fill up t, rounds := [{ rotations }] }
        | .short t =>
          let above ← repairShort up t
          return { above with rounds := {} :: above.rounds }

/-- Puts a subtree where a node of the given colour was taken out. If that was
    black, every way through the place has one black node too few, and the
    repair moves this lack up until it can be made good. -/
def closeGap (path : Path) (removed : Color) (x : Shape) : Except Fault Repaired :=
  match removed with
  | .black => repairShort path x
  | .red => .ok { shape := fill path x }

/-- The outermost slot on a side once the outermost node itself is gone: the
    outermost one of its only subtree, or else its parent. -/
def extremeWithout (side : Side) (path : Path) (only : Shape) : Option Slot :=
  (only.extreme side).or (path.head?.map Frame.slot)

end Path

namespace Shape

/-- Takes the node in a slot out and restores the balance. A node with two
    children hands its place and colour to its successor, so what goes out of
    the shape is always a place with at most one child. All other nodes keep
    their slots. -/
def unlink (slot : Slot) (t : Shape) : Except Fault Repaired :=
  match t.zoom slot [] with
  | some (path, node color left _ right) =>
    match left, right with
    | nil, right => path.closeGap color right
    | left, nil => path.closeGap color left
    | left, right =>
      match right.zoomExtreme .left [] with
      | some (inner, removed, heir, rest) =>
        Path.closeGap (inner ++ ⟨.right, color, heir, left⟩ :: path) removed rest
      | none => .error (.dereference .nil)
  | _ => .error (.dereference .nil)

end Shape

end RedBlack
