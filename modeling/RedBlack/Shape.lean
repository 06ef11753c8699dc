import RedBlack.Handle
import RedBlack.Side

namespace RedBlack

inductive Color where
  | red
  | black
  deriving DecidableEq, Repr

/-- The shape of a red-black tree: which slots hang where, and in which colour.
    The items are kept in the slots and not in the shape, so restoring the
    balance never moves an item. -/
inductive Shape where
  | nil
  | node (color : Color) (left : Shape) (slot : Slot) (right : Shape)
  deriving DecidableEq, Repr

namespace Shape

/-- The node with `near` on the given side and `far` on the other. -/
def branch (side : Side) (color : Color) (slot : Slot) (near far : Shape) : Shape :=
  match side with
  | .left => node color near slot far
  | .right => node color far slot near

/-- The subtree on a side. -/
def child (side : Side) : Shape → Shape
  | nil => nil
  | node _ left _ right =>
    match side with
    | .left => left
    | .right => right

/-- A missing node counts as black. -/
def color : Shape → Color
  | nil => .black
  | node color _ _ _ => color

def isRed (t : Shape) : Bool :=
  t.color = .red

/-- Gives the top node a colour, if there is one; where one must be there,
    `recolor` asks for it. -/
def paint (color : Color) : Shape → Shape
  | nil => nil
  | node _ left slot right => node color left slot right

def slot? : Shape → Option Slot
  | nil => none
  | node _ _ slot _ => some slot

def slots : Shape → List Slot
  | nil => []
  | node _ left slot right => left.slots ++ slot :: right.slots

def size : Shape → Nat
  | nil => 0
  | node _ left _ right => left.size + 1 + right.size

/-- How many nodes there are on the longest way down. -/
def height : Shape → Nat
  | nil => 0
  | node _ left _ right => max left.height right.height + 1

/-- The outermost slot on a side. -/
def extreme (side : Side) : Shape → Option Slot
  | nil => none
  | node _ left slot right =>
    match side with
    | .left => (left.extreme side).or (some slot)
    | .right => (right.extreme side).or (some slot)

/-- The node that a slot holds, as the tree links it. -/
structure Links where
  slot : Slot
  color : Color
  parent : Handle
  left : Handle
  right : Handle
  deriving DecidableEq, Repr

/-- The nodes in order with the links they have below the given parent. -/
def links (parent : Handle) : Shape → List Links
  | nil => []
  | node color left slot right =>
    left.links (.node slot) ++
      { slot, color, parent, left := .ofChild left.slot?, right := .ofChild right.slot? } ::
        right.links (.node slot)

@[simp] theorem slots_branch_left (color : Color) (slot : Slot) (near far : Shape) :
    (branch .left color slot near far).slots = near.slots ++ slot :: far.slots :=
  rfl

@[simp] theorem slots_branch_right (color : Color) (slot : Slot) (near far : Shape) :
    (branch .right color slot near far).slots = far.slots ++ slot :: near.slots :=
  rfl

@[simp] theorem slots_paint (color : Color) (t : Shape) : (t.paint color).slots = t.slots := by
  cases t <;> rfl

@[simp] theorem length_slots (t : Shape) : t.slots.length = t.size := by
  induction t with
  | nil => rfl
  | node _ left _ right ihl ihr => simp [slots, size, ihl, ihr]; omega

/-- The links show every node once, in order. -/
theorem map_slot_links (parent : Handle) (t : Shape) : (t.links parent).map Links.slot = t.slots := by
  induction t generalizing parent with
  | nil => rfl
  | node _ left _ right ihl ihr => simp [links, slots, ihl, ihr]

theorem extreme_left (t : Shape) : t.extreme .left = t.slots.head? := by
  induction t with
  | nil => rfl
  | node _ left slot _ ihl => cases h : left.slots <;> simp [extreme, slots, ihl, h]

theorem extreme_right (t : Shape) : t.extreme .right = t.slots.getLast? := by
  induction t with
  | nil => rfl
  | node _ _ slot right _ ihr =>
    cases h : right.slots <;> simp [extreme, slots, ihr, h, List.getLast?_cons]

end Shape

end RedBlack
