import RedBlack.Fault
import RedBlack.Shape

namespace RedBlack

/-- A node on the way down, without the subtree that the way goes into. -/
structure Frame where
  /-- The side on which the way goes down. -/
  side : Side
  color : Color
  slot : Slot
  /-- The subtree on the other side. -/
  sibling : Shape
  deriving DecidableEq, Repr

/-- The nodes above a subtree, its parent first. Filling a path with the subtree
    gives the whole shape back, so a change deep in a shape is a change of the
    subtree, or a recursion up the path. -/
abbrev Path := List Frame

namespace Frame

/-- Puts a subtree where the way went down. -/
def close (f : Frame) (t : Shape) : Shape :=
  .branch f.side f.color f.slot t f.sibling

end Frame

namespace Path

def fill : Path → Shape → Shape
  | [], t => t
  | f :: up, t => fill up (f.close t)

/-- The nearest node above that lies on the given side: the first one from which
    the way went down on the other side. -/
def nearest (side : Side) : Path → Option Slot
  | [] => none
  | f :: up => if f.side = side.opposite then some f.slot else nearest side up

def parent : Path → Handle
  | [] => .header
  | f :: _ => .node f.slot

/-- The slots before those of the subtree, in order. -/
def slotsBefore : Path → List Slot
  | [] => []
  | f :: up =>
    match f.side with
    | .left => slotsBefore up
    | .right => slotsBefore up ++ f.sibling.slots ++ [f.slot]

/-- The slots after those of the subtree, in order. -/
def slotsAfter : Path → List Slot
  | [] => []
  | f :: up =>
    match f.side with
    | .left => f.slot :: f.sibling.slots ++ slotsAfter up
    | .right => slotsAfter up

@[simp] theorem fill_nil (t : Shape) : fill [] t = t :=
  rfl

@[simp] theorem fill_cons (f : Frame) (up : Path) (t : Shape) :
    fill (f :: up) t = fill up (f.close t) :=
  rfl

theorem fill_append (p q : Path) (t : Shape) : fill (p ++ q) t = fill q (fill p t) := by
  induction p generalizing t with
  | nil => rfl
  | cons f up ih => exact ih (f.close t)

/-- The slots of the whole are those before, within and after the subtree. -/
theorem slots_fill (p : Path) (t : Shape) :
    (fill p t).slots = slotsBefore p ++ t.slots ++ slotsAfter p := by
  induction p generalizing t with
  | nil => simp [slotsBefore, slotsAfter]
  | cons f up ih =>
    cases h : f.side <;> simp [ih, Frame.close, slotsBefore, slotsAfter, h]

end Path

namespace Shape

/-- Gives the top node a colour; there must be one. -/
def recolor (color : Color) : Shape → Except Fault Shape
  | nil => .error (.dereference .nil)
  | node _ left slot right => .ok (node color left slot right)

/-- Gives the child on a side a colour; the node and its child must be there. -/
def recolorChild (side : Side) (color : Color) : Shape → Except Fault Shape
  | nil => .error (.dereference .nil)
  | node c left slot right =>
    match side with
    | .left => return node c (← left.recolor color) slot right
    | .right => return node c left slot (← right.recolor color)

/-- The way from the given path down to the node in a slot, and the subtree
    under that node. -/
def zoom (slot : Slot) : Shape → Path → Option (Path × Shape)
  | nil, _ => none
  | t@(node color left s right), path =>
    if s = slot then some (path, t)
    else
      match left.zoom slot (⟨.left, color, s, right⟩ :: path) with
      | some found => some found
      | none => right.zoom slot (⟨.right, color, s, left⟩ :: path)

/-- The way from the given path down to the outermost node on a side, and what
    hangs there on its other side together with its colour and slot. -/
def zoomExtreme (side : Side) : Shape → Path → Option (Path × Color × Slot × Shape)
  | nil, _ => none
  | node color left s right, path =>
    match side with
    | .left => (left.zoomExtreme side (⟨.left, color, s, right⟩ :: path)).or (some (path, color, s, right))
    | .right => (right.zoomExtreme side (⟨.right, color, s, left⟩ :: path)).or (some (path, color, s, left))

/-- The next slot on a side of the one given: the nearest in the subtree on that
    side, or else the nearest above. `none` if the slot is not linked, `some
    none` if it is the outermost one. -/
def neighbour (side : Side) (slot : Slot) (t : Shape) : Option (Option Slot) :=
  match t.zoom slot [] with
  | none => none
  | some (path, found) =>
    some (((found.child side).extreme side.opposite).or (path.nearest side))

/-- Whether the node in a slot has no child on a side; `none` if the slot is not
    linked. -/
def vacant? (side : Side) (slot : Slot) (t : Shape) : Option Bool :=
  (t.zoom slot []).map fun (_, found) => found.child side = nil

/-- What `zoom` finds makes up the whole it was searched in. -/
theorem fill_zoom {slot : Slot} {t : Shape} {path : Path} {found : Path × Shape}
    (h : t.zoom slot path = some found) : found.1.fill found.2 = path.fill t := by
  induction t generalizing path with
  | nil => simp [zoom] at h
  | node color left s right ihl ihr =>
    unfold zoom at h
    split at h
    · cases h; rfl
    · split at h
      · next found' heq => cases h; simpa [Frame.close, branch] using ihl heq
      · simpa [Frame.close, branch] using ihr h

/-- What `zoom` finds is the node in the slot. -/
theorem slot?_zoom {slot : Slot} {t : Shape} {path : Path} {found : Path × Shape}
    (h : t.zoom slot path = some found) : found.2.slot? = some slot := by
  induction t generalizing path with
  | nil => simp [zoom] at h
  | node color left s right ihl ihr =>
    unfold zoom at h
    split at h
    · next heq => cases h; simp [slot?, heq]
    · split at h
      · next found' heq => cases h; exact ihl heq
      · exact ihr h

end Shape

end RedBlack
