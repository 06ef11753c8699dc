import RedBlack.Shape.Path

namespace RedBlack.Shape

/-- Turns the top node down to `side`, so that its child on the other side comes
    up in its place. Both nodes keep their colours, and the slots stay in
    order. -/
def rotate (side : Side) : Shape → Except Fault Shape
  | nil => .error (.dereference .nil)
  | t@(node color _ slot _) =>
    match t.child side.opposite with
    | nil => .error (.noChildToRaise side)
    | raised@(node raisedColor _ raisedSlot _) =>
      .ok (branch side raisedColor raisedSlot
        (branch side color slot (t.child side) (raised.child side)) (raised.child side.opposite))

/-- Rotates at the node in a slot, wherever it lies; `none` if the slot is not
    linked. -/
def rotateAt (side : Side) (slot : Slot) (t : Shape) : Option (Except Fault Shape) :=
  (t.zoom slot []).map fun (path, found) => (found.rotate side).map path.fill

@[simp] theorem child_branch_self (side : Side) (color : Color) (slot : Slot) (near far : Shape) :
    (branch side color slot near far).child side = near := by
  cases side <;> rfl

@[simp] theorem child_branch_opposite (side : Side) (color : Color) (slot : Slot) (near far : Shape) :
    (branch side color slot near far).child side.opposite = far := by
  cases side <;> rfl

end RedBlack.Shape
