import RedBlack.Proofs.Shape.Holes
import RedBlack.Proofs.Shape.Symmetry

namespace RedBlack

/-- A shape with every slot renamed. No operation on shapes looks at a slot for
    anything but whether it is the one sought, so each of them commutes with a
    renaming that keeps different slots apart. -/
def Shape.rename (f : Slot → Slot) : Shape → Shape
  | nil => nil
  | node color left slot right => node color (left.rename f) (f slot) (right.rename f)

def Frame.rename (f : Slot → Slot) (frame : Frame) : Frame where
  side := frame.side
  color := frame.color
  slot := f frame.slot
  sibling := frame.sibling.rename f

def Path.rename (f : Slot → Slot) (p : Path) : Path :=
  p.map (Frame.rename f)

def Place.rename (f : Slot → Slot) : Place → Place
  | root => root
  | under parent side => under (f parent) side

def Repaired.rename (f : Slot → Slot) (r : Repaired) : Repaired where
  shape := r.shape.rename f
  rounds := r.rounds

variable {f : Slot → Slot}

namespace Shape

@[simp] theorem rename_nil : nil.rename f = nil :=
  rfl

@[simp] theorem rename_node (color : Color) (left right : Shape) (slot : Slot) :
    (node color left slot right).rename f = node color (left.rename f) (f slot) (right.rename f) :=
  rfl

@[simp] theorem rename_branch (side : Side) (color : Color) (slot : Slot) (near far : Shape) :
    (branch side color slot near far).rename f = branch side color (f slot) (near.rename f) (far.rename f) := by
  cases side <;> rfl

@[simp] theorem rename_eq_nil {t : Shape} : t.rename f = nil ↔ t = nil := by
  cases t <;> simp [rename]

@[simp] theorem child_rename (side : Side) (t : Shape) : (t.rename f).child side = (t.child side).rename f := by
  cases t <;> cases side <;> rfl

@[simp] theorem slots_rename (t : Shape) : (t.rename f).slots = t.slots.map f := by
  induction t with
  | nil => rfl
  | node color left slot right ihl ihr => simp [slots, ihl, ihr]

@[simp] theorem extreme_rename (side : Side) (t : Shape) :
    (t.rename f).extreme side = (t.extreme side).map f := by
  cases side <;> simp [extreme_left, extreme_right]

theorem rename_congr {g : Slot → Slot} {t : Shape} (h : ∀ slot ∈ t.slots, f slot = g slot) :
    t.rename f = t.rename g := by
  induction t with
  | nil => rfl
  | node color left slot right ihl ihr =>
    simp only [slots, List.mem_append, List.mem_cons] at h
    rw [rename_node, rename_node, ihl fun s hs => h s (.inl hs), h slot (.inr (.inl rfl)),
      ihr fun s hs => h s (.inr (.inr hs))]

theorem rename_id (t : Shape) : t.rename id = t := by
  induction t with
  | nil => rfl
  | node color left slot right ihl ihr => rw [rename_node, ihl, ihr, id]

end Shape

namespace Path

@[simp] theorem rename_nil : Path.rename f [] = [] :=
  rfl

@[simp] theorem rename_cons (frame : Frame) (up : Path) :
    Path.rename f (frame :: up) = frame.rename f :: Path.rename f up :=
  rfl

@[simp] theorem rename_append (p q : Path) : Path.rename f (p ++ q) = Path.rename f p ++ Path.rename f q :=
  List.map_append

end Path

@[simp] theorem Frame.close_rename (frame : Frame) (t : Shape) :
    (frame.rename f).close (t.rename f) = (frame.close t).rename f := by
  simp [close, Frame.rename]

namespace Path

@[simp] theorem fill_rename (p : Path) (t : Shape) : (p.rename f).fill (t.rename f) = (p.fill t).rename f := by
  induction p generalizing t with
  | nil => rfl
  | cons frame up ih => simp [ih]

@[simp] theorem nearest_rename (side : Side) (p : Path) : (p.rename f).nearest side = (p.nearest side).map f := by
  induction p with
  | nil => rfl
  | cons frame up ih =>
    rw [rename_cons, nearest, nearest, ih]
    split <;> split <;> simp_all [Frame.rename]

@[simp] theorem slotsBefore_rename (p : Path) : (p.rename f).slotsBefore = p.slotsBefore.map f := by
  induction p with
  | nil => rfl
  | cons frame up ih => cases h : frame.side <;> simp [slotsBefore, Frame.rename, h, ih]

@[simp] theorem slotsAfter_rename (p : Path) : (p.rename f).slotsAfter = p.slotsAfter.map f := by
  induction p with
  | nil => rfl
  | cons frame up ih => cases h : frame.side <;> simp [slotsAfter, Frame.rename, h, ih]

@[simp] theorem place_rename (p : Path) : (p.rename f).place = p.place.rename f := by
  cases p <;> rfl

end Path

namespace Shape

section Zoom

variable (hf : Function.Injective f)
include hf

theorem zoom_rename (slot : Slot) (t : Shape) (path : Path) :
    (t.rename f).zoom (f slot) (path.rename f) =
      (t.zoom slot path).map fun found => (found.1.rename f, found.2.rename f) := by
  induction t generalizing path with
  | nil => rfl
  | node color left s right ihl ihr =>
    rw [rename_node, zoom, zoom]
    by_cases hs : s = slot
    · simp [hs]
    · have hl := ihl (⟨.left, color, s, right⟩ :: path)
      have hr := ihr (⟨.right, color, s, left⟩ :: path)
      rw [if_neg hs, if_neg (hf.ne hs)]
      simp only [Path.rename_cons, Frame.rename] at hl hr
      rw [hl, hr]
      cases left.zoom slot (⟨.left, color, s, right⟩ :: path) <;> rfl

theorem neighbour_rename (side : Side) (slot : Slot) (t : Shape) :
    (t.rename f).neighbour side (f slot) = (t.neighbour side slot).map (Option.map f) := by
  have hzoom := zoom_rename hf slot t []
  rw [Path.rename_nil] at hzoom
  rw [neighbour, neighbour, hzoom]
  cases t.zoom slot [] with
  | none => rfl
  | some found => simp [Option.map_or]

theorem vacant?_rename (side : Side) (slot : Slot) (t : Shape) :
    (t.rename f).vacant? side (f slot) = t.vacant? side slot := by
  have hzoom := zoom_rename hf slot t []
  rw [Path.rename_nil] at hzoom
  rw [vacant?, vacant?, hzoom]
  cases t.zoom slot [] with
  | none => rfl
  | some found => simp

end Zoom

theorem zoomExtreme_rename (side : Side) (t : Shape) (path : Path) :
    (t.rename f).zoomExtreme side (path.rename f) =
      (t.zoomExtreme side path).map fun found =>
        (found.1.rename f, found.2.1, f found.2.2.1, found.2.2.2.rename f) := by
  induction t generalizing path with
  | nil => rfl
  | node color left s right ihl ihr =>
    cases side with
    | left =>
      have hl := ihl (⟨.left, color, s, right⟩ :: path)
      rw [Path.rename_cons, Frame.rename] at hl
      rw [rename_node, zoomExtreme, zoomExtreme]
      simp only [hl]
      cases left.zoomExtreme .left (⟨.left, color, s, right⟩ :: path) <;> rfl
    | right =>
      have hr := ihr (⟨.right, color, s, left⟩ :: path)
      rw [Path.rename_cons, Frame.rename] at hr
      rw [rename_node, zoomExtreme, zoomExtreme]
      simp only [hr]
      cases right.zoomExtreme .right (⟨.right, color, s, left⟩ :: path) <;> rfl

end Shape

/-- A renaming leaves the sides alone. -/
def Symmetry.naming (f : Slot → Slot) : Symmetry where
  side := id
  slot := f
  side_opposite _ := rfl

section Symmetry

variable {α β : Type}

theorem Symmetry.outcome_naming (image : α → β) (r : Except Fault α) :
    (naming f).outcome image r = r.map image := by
  cases r with
  | ok a => rfl
  | error fault => cases fault <;> rfl

theorem Shape.rename_eq_image (t : Shape) : t.rename f = t.image (.naming f) := by
  induction t with
  | nil => rfl
  | node color left slot right ihl ihr => rw [rename_node, ihl, ihr]; rfl

theorem Frame.rename_eq_image (frame : Frame) : frame.rename f = frame.image (.naming f) := by
  rw [Frame.rename, Shape.rename_eq_image]
  rfl

theorem Path.rename_eq_image (p : Path) : p.rename f = p.image (.naming f) := by
  rw [Path.rename, Path.image, funext Frame.rename_eq_image]

theorem Repaired.rename_eq_image : Repaired.rename f = Repaired.image (.naming f) := by
  funext r
  rw [Repaired.rename, Shape.rename_eq_image]
  rfl

end Symmetry

namespace Path

theorem repairRed_rename (p : Path) (x : Shape) :
    repairRed (p.rename f) (x.rename f) = (repairRed p x).map (Repaired.rename f) := by
  rw [rename_eq_image, Shape.rename_eq_image, repairRed_image, Symmetry.outcome_naming, Repaired.rename_eq_image]

theorem repairShort_rename (p : Path) (x : Shape) :
    repairShort (p.rename f) (x.rename f) = (repairShort p x).map (Repaired.rename f) := by
  rw [rename_eq_image, Shape.rename_eq_image, repairShort_image, Symmetry.outcome_naming, Repaired.rename_eq_image]

theorem closeGap_rename (p : Path) (removed : Color) (x : Shape) :
    closeGap (p.rename f) removed (x.rename f) = (closeGap p removed x).map (Repaired.rename f) := by
  cases removed with
  | red => simp [closeGap, Repaired.rename]
  | black => exact repairShort_rename p x

end Path

namespace Shape

variable (hf : Function.Injective f)
include hf

theorem attach_rename (slot : Slot) (place : Place) (t : Shape) :
    (t.rename f).attach (f slot) (place.rename f) = (t.attach slot place).map (Repaired.rename f) := by
  cases place with
  | root =>
    cases t with
    | nil => exact Path.repairRed_rename [] (leaf .red slot)
    | node => rfl
  | under parent side =>
    have hzoom := zoom_rename hf parent t []
    rw [Path.rename_nil] at hzoom
    rw [Place.rename, attach, attach, hzoom]
    cases t.zoom parent [] with
    | none => rfl
    | some found =>
      obtain ⟨path, found⟩ := found
      cases found with
      | nil => rfl
      | node color left s right =>
        cases side with
        | left =>
          cases left with
          | nil => exact Path.repairRed_rename (⟨.left, color, s, right⟩ :: path) (leaf .red slot)
          | node => rfl
        | right =>
          cases right with
          | nil => exact Path.repairRed_rename (⟨.right, color, s, left⟩ :: path) (leaf .red slot)
          | node => rfl

theorem unlink_rename (slot : Slot) (t : Shape) :
    (t.rename f).unlink (f slot) = (t.unlink slot).map (Repaired.rename f) := by
  have hzoom := zoom_rename hf slot t []
  rw [Path.rename_nil] at hzoom
  rw [unlink, unlink, hzoom]
  cases t.zoom slot [] with
  | none => rfl
  | some found =>
    obtain ⟨path, found⟩ := found
    cases found with
    | nil => rfl
    | node color left s right =>
      cases left with
      | nil => exact Path.closeGap_rename path color right
      | node cl ll sl rl =>
        cases right with
        | nil => exact Path.closeGap_rename path color (node cl ll sl rl)
        | node cr lr sr rr =>
          have hheir := zoomExtreme_rename (f := f) .left (node cr lr sr rr) []
          rw [Path.rename_nil] at hheir
          simp only [Option.map_some, rename_node] at hheir ⊢
          rw [hheir]
          cases (node cr lr sr rr).zoomExtreme .left [] with
          | none => rfl
          | some heir =>
            obtain ⟨inner, removed, heir, rest⟩ := heir
            have hclose := Path.closeGap_rename (f := f)
              (inner ++ ⟨.right, color, heir, node cl ll sl rl⟩ :: path) removed rest
            simp only [Path.rename_append, Path.rename_cons, Frame.rename] at hclose
            exact hclose

end Shape

end RedBlack
