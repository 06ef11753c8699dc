import RedBlack.Proofs.Shape.Holes
import RedBlack.Proofs.Shape.Links
import RedBlack.Proofs.Shape.Symmetry

namespace RedBlack

namespace Shape

/-- The shape with left and right exchanged in every node. What a mirror does to
    the slots in order, to the links and to the repairs follows from that. -/
def mirror : Shape → Shape
  | nil => nil
  | node color left slot right => node color right.mirror slot left.mirror

/-- The line of a node with left and right exchanged. -/
def Links.mirror (l : Links) : Links :=
  { l with left := l.right, right := l.left }

end Shape

def Frame.mirror (f : Frame) : Frame :=
  { f with side := f.side.opposite, sibling := f.sibling.mirror }

def Path.mirror (p : Path) : Path :=
  p.map Frame.mirror

def Place.mirror : Place → Place
  | root => root
  | under parent side => under parent side.opposite

def Repaired.mirror (r : Repaired) : Repaired :=
  { r with shape := r.shape.mirror }

namespace Shape

@[simp] theorem mirror_nil : nil.mirror = nil :=
  rfl

@[simp] theorem mirror_node (color : Color) (left right : Shape) (slot : Slot) :
    (node color left slot right).mirror = node color right.mirror slot left.mirror :=
  rfl

@[simp] theorem mirror_branch (side : Side) (color : Color) (slot : Slot) (near far : Shape) :
    (branch side color slot near far).mirror = branch side.opposite color slot near.mirror far.mirror := by
  cases side <;> rfl

@[simp] theorem color_mirror (t : Shape) : t.mirror.color = t.color := by
  cases t <;> rfl

@[simp] theorem slot?_mirror (t : Shape) : t.mirror.slot? = t.slot? := by
  cases t <;> rfl

/-- A mirror turns the order of the slots around and leaves none out. -/
@[simp] theorem slots_mirror (t : Shape) : t.mirror.slots = t.slots.reverse := by
  induction t with
  | nil => rfl
  | node color left slot right ihl ihr => simp [slots, ihl, ihr]

/-- A mirror exchanges the links to the left and to the right and keeps the
    colours and the parents. -/
theorem links_mirror (parent : Handle) (t : Shape) :
    t.mirror.links parent = ((t.links parent).map Links.mirror).reverse := by
  induction t generalizing parent with
  | nil => rfl
  | node color left slot right ihl ihr => simp [links, ihl, ihr, Links.mirror]

theorem Balanced.mirror {t : Shape} {n : Nat} (h : t.Balanced n) : t.mirror.Balanced n := by
  induction t generalizing n with
  | nil => exact h
  | node color left slot right ihl ihr =>
    obtain ⟨m, hn, hl, hr, hred⟩ := h
    refine ⟨m, hn, ihr hr, ihl hl, ?_⟩
    intro hcolor
    rw [color_mirror, color_mirror]
    exact (hred hcolor).symm

theorem IsRedBlack.mirror {t : Shape} (h : t.IsRedBlack) : t.mirror.IsRedBlack := by
  obtain ⟨hcolor, n, hn⟩ := h
  exact ⟨(color_mirror t).trans hcolor, n, hn.mirror⟩

end Shape

namespace Path

variable {p : Path} {x : Shape} {n : Nat}

@[simp] theorem mirror_cons (f : Frame) (up : Path) : mirror (f :: up) = f.mirror :: mirror up :=
  rfl

@[simp] theorem fill_mirror (p : Path) (t : Shape) : p.mirror.fill t.mirror = (p.fill t).mirror := by
  induction p generalizing t with
  | nil => rfl
  | cons f up ih =>
    have hclose : f.mirror.close t.mirror = (f.close t).mirror := by simp [Frame.close, Frame.mirror]
    rw [mirror_cons, fill_cons, fill_cons, hclose, ih]

@[simp] theorem slotsBefore_mirror (p : Path) : p.mirror.slotsBefore = p.slotsAfter.reverse := by
  induction p with
  | nil => rfl
  | cons f up ih => cases h : f.side <;> simp [slotsBefore, slotsAfter, Frame.mirror, h, ih]

@[simp] theorem place_mirror (p : Path) : p.mirror.place = p.place.mirror := by
  cases p <;> rfl

end Path

/-- A mirror exchanges the sides and leaves the slots alone. -/
def Symmetry.mirror : Symmetry where
  side := Side.opposite
  slot := id
  side_opposite _ := rfl

theorem Shape.mirror_eq_image (t : Shape) : t.mirror = t.image .mirror := by
  induction t with
  | nil => rfl
  | node color left slot right ihl ihr => rw [mirror_node, ihl, ihr]; rfl

theorem Path.mirror_eq_image (p : Path) : p.mirror = p.image .mirror := by
  have hframe (f : Frame) : f.mirror = f.image .mirror := by
    rw [Frame.mirror, Shape.mirror_eq_image]
    rfl
  rw [Path.mirror, Path.image, funext hframe]

theorem Repaired.mirror_eq_image : Repaired.mirror = Repaired.image .mirror := by
  funext r
  rw [Repaired.mirror, Shape.mirror_eq_image]
  rfl

namespace Path

variable {p : Path} {x : Shape} {n : Nat}

/-- The repair of red nodes does on the left what it does on the right. -/
theorem repairRed_mirror (p : Path) (x : Shape) :
    p.mirror.repairRed x.mirror = Symmetry.mirror.outcome Repaired.mirror (p.repairRed x) := by
  rw [mirror_eq_image, Shape.mirror_eq_image, repairRed_image, Repaired.mirror_eq_image]

/-- The repair of a lack does on the left what it does on the right. -/
theorem repairShort_mirror (p : Path) (x : Shape) :
    p.mirror.repairShort x.mirror = Symmetry.mirror.outcome Repaired.mirror (p.repairShort x) := by
  rw [mirror_eq_image, Shape.mirror_eq_image, repairShort_image, Repaired.mirror_eq_image]

end Path

namespace Shape

/-- Hanging a node into a missing child comes to the mirror image of hanging it
    on the other side. -/
theorem attach_mirror {p : Path} (slot : Slot) (hnodup : (p.fill .nil).slots.Nodup) :
    (p.fill .nil).mirror.attach slot p.place.mirror =
      Symmetry.mirror.outcome Repaired.mirror ((p.fill .nil).attach slot p.place) := by
  have hnodup' : (p.mirror.fill .nil).slots.Nodup := by
    rw [← mirror_nil, Path.fill_mirror, slots_mirror, List.nodup_reverse]
    exact hnodup
  rw [attach_place slot hnodup, ← Path.repairRed_mirror, ← Path.fill_mirror, ← Path.place_mirror]
  exact attach_place slot hnodup'

end Shape

end RedBlack
