import RedBlack.Proofs.Store.Reuse
import RedBlack.Shape

namespace RedBlack

variable {α : Type}

/-- A new line for the node in every slot, made from the slot and the line that
    is there. Links that are written one after the other into the slots of a
    store make up such a change of all its lines. -/
abbrev Overlay :=
  Slot → Shape.Links → Shape.Links

namespace Overlay

/-- The change that leaves every line as it is. -/
def none : Overlay :=
  fun _ l => l

/-- The change followed by one more change of the line in a single slot. -/
def touch (slot : Slot) (change : Shape.Links → Shape.Links) (f : Overlay) : Overlay :=
  fun other l => if other = slot then change (f other l) else f other l

variable {slot other : Slot} {change : Shape.Links → Shape.Links} {f : Overlay} {l : Shape.Links}

@[simp] theorem touch_self : f.touch slot change slot l = change (f slot l) :=
  if_pos rfl

theorem touch_of_ne (h : other ≠ slot) : f.touch slot change other l = f other l :=
  if_neg h

end Overlay

/-- The arena with its nodes relinked. Items stay in their slots, and no slot is
    taken or given back. -/
def Arena.relink (f : Overlay) (a : Arena (Shape.Links × α)) : Arena (Shape.Links × α) where
  cells := a.cells.mapIdx fun slot => Cell.map fun node => (f slot node.1, node.2)
  free := a.free

namespace Arena

variable {a : Arena (Shape.Links × α)} {f g : Overlay} {slot : Slot}

theorem cells_relink (f : Overlay) (a : Arena (Shape.Links × α)) (slot : Slot) :
    (a.relink f).cells[slot]? = (a.cells[slot]?).map (Cell.map fun node => (f slot node.1, node.2)) := by
  simp [relink]

theorem read_relink (f : Overlay) (a : Arena (Shape.Links × α)) (slot : Slot) :
    (a.relink f).read slot = (a.read slot).map fun node => (f slot node.1, node.2) := by
  have hsize : (a.relink f).cells.size = a.cells.size := by simp [relink]
  unfold read cell
  rw [cells_relink, hsize]
  cases a.cells[slot]? with
  | none => rfl
  | some c => cases c <;> rfl

theorem relink_congr (h : ∀ slot node, a.read slot = .ok node → f slot node.1 = g slot node.1) :
    a.relink f = a.relink g := by
  have hcells : (a.relink f).cells = (a.relink g).cells := by
    refine Array.ext_getElem? fun slot => ?_
    rw [cells_relink, cells_relink]
    cases hcell : a.cells[slot]? with
    | none => rfl
    | some c =>
      cases c with
      | built node => simp [Cell.map, h slot node (read_eq_ok_iff.mpr hcell)]
      | reserved => rfl
      | free next => rfl
  rw [relink, relink, mk.injEq]
  exact ⟨hcells, rfl⟩

theorem relink_relink (f g : Overlay) (a : Arena (Shape.Links × α)) :
    (a.relink f).relink g = a.relink fun slot l => g slot (f slot l) := by
  have hcells : ((a.relink f).relink g).cells = (a.relink fun slot l => g slot (f slot l)).cells := by
    refine Array.ext_getElem? fun slot => ?_
    rw [cells_relink, cells_relink, cells_relink]
    cases a.cells[slot]? with
    | none => rfl
    | some c => cases c <;> rfl
  rw [relink, relink, mk.injEq]
  exact ⟨hcells, rfl⟩

theorem relink_none (a : Arena (Shape.Links × α)) : a.relink .none = a := by
  have hcells : (a.relink .none).cells = a.cells := by
    refine Array.ext_getElem? fun slot => ?_
    rw [cells_relink]
    cases a.cells[slot]? with
    | none => rfl
    | some c => cases c <;> rfl
  cases a
  rw [relink, mk.injEq]
  exact ⟨hcells, rfl⟩

theorem map_snd_relink (f : Overlay) (a : Arena (Shape.Links × α)) : (a.relink f).map Prod.snd = a.map Prod.snd := by
  have hcells : ((a.relink f).map Prod.snd).cells = (a.map Prod.snd).cells := by
    refine Array.ext_getElem? fun slot => ?_
    simp only [map, Array.getElem?_map, cells_relink]
    cases a.cells[slot]? with
    | none => rfl
    | some c => cases c <;> rfl
  rw [map, map, mk.injEq]
  exact ⟨hcells, rfl⟩

/-- A new line is written into a slot that holds a node by relinking this slot
    alone. -/
theorem write_line {node : Shape.Links × α} (h : a.read slot = .ok node) (change : Shape.Links → Shape.Links) :
    a.write slot (change node.1, node.2) = .ok (a.relink (Overlay.none.touch slot change)) := by
  have hcell := read_eq_ok_iff.mp h
  have hcells : a.cells.setIfInBounds slot (.built (change node.1, node.2)) =
      (a.relink (Overlay.none.touch slot change)).cells := by
    refine Array.ext_getElem? fun other => ?_
    rw [cells_relink, Array.getElem?_setIfInBounds]
    split
    · next heq =>
      subst heq
      obtain ⟨hlt, hget⟩ := Array.getElem?_eq_some_iff.mp hcell
      simp [hlt, hget, Cell.map, Overlay.none]
    · next hne =>
      cases a.cells[other]? with
      | none => rfl
      | some c => cases c <;> simp [Cell.map, Overlay.touch_of_ne (Ne.symm hne), Overlay.none]
  rw [write, cell_eq hcell, relink, Except.ok.injEq, mk.injEq]
  exact ⟨hcells, rfl⟩

end Arena

namespace Store

/-- The store with its nodes relinked. Its layers do not see that. -/
def relink (f : Overlay) : Store (Shape.Links × α) → Store (Shape.Links × α)
  | arena base => arena (base.relink f)
  | counting below allocations deallocations => counting (below.relink f) allocations deallocations
  | limited below remaining => limited (below.relink f) remaining
  | recorded below calls => recorded (below.relink f) calls

variable {s : Store (Shape.Links × α)} {f g : Overlay} {slot : Slot} {node : Shape.Links × α}

theorem base_relink (f : Overlay) (s : Store (Shape.Links × α)) : (s.relink f).base = s.base.relink f := by
  induction s with
  | arena base => rfl
  | counting below allocations deallocations ih | limited below remaining ih | recorded below calls ih => exact ih

theorem read_relink (f : Overlay) (s : Store (Shape.Links × α)) (slot : Slot) :
    (s.relink f).read slot = (s.read slot).map fun node => (f slot node.1, node.2) := by
  rw [Store.read, base_relink, Arena.read_relink]
  rfl

theorem relink_congr (h : ∀ slot node, s.read slot = .ok node → f slot node.1 = g slot node.1) :
    s.relink f = s.relink g := by
  induction s with
  | arena base => exact congrArg arena (Arena.relink_congr h)
  | counting below allocations deallocations ih => exact congrArg (counting · _ _) (ih h)
  | limited below remaining ih => exact congrArg (limited · _) (ih h)
  | recorded below calls ih => exact congrArg (recorded · _) (ih h)

theorem relink_relink (f g : Overlay) (s : Store (Shape.Links × α)) :
    (s.relink f).relink g = s.relink fun slot l => g slot (f slot l) := by
  induction s with
  | arena base => exact congrArg arena (Arena.relink_relink f g base)
  | counting below allocations deallocations ih => exact congrArg (counting · _ _) ih
  | limited below remaining ih => exact congrArg (limited · _) ih
  | recorded below calls ih => exact congrArg (recorded · _) ih

theorem relink_none (s : Store (Shape.Links × α)) : s.relink .none = s := by
  induction s with
  | arena base => exact congrArg arena base.relink_none
  | counting below allocations deallocations ih => exact congrArg (counting · _ _) ih
  | limited below remaining ih => exact congrArg (limited · _) ih
  | recorded below calls ih => exact congrArg (recorded · _) ih

/-- Relinking keeps the items, and what the layers count, limit and record. -/
theorem map_snd_relink (f : Overlay) (s : Store (Shape.Links × α)) : (s.relink f).map Prod.snd = s.map Prod.snd := by
  induction s with
  | arena base => exact congrArg arena (Arena.map_snd_relink f base)
  | counting below allocations deallocations ih => exact congrArg (counting · _ _) ih
  | limited below remaining ih => exact congrArg (limited · _) ih
  | recorded below calls ih => exact congrArg (recorded · _) ih

/-- A new line is written into a slot that holds a node by relinking this slot
    alone, whatever layers there are. -/
theorem write_line (h : s.read slot = .ok node) (change : Shape.Links → Shape.Links) :
    s.write slot (change node.1, node.2) = .ok (s.relink (Overlay.none.touch slot change)) := by
  induction s with
  | arena base =>
    have hbase : base.read slot = .ok node := h
    rw [write, Arena.write_line hbase]
    rfl
  | counting below allocations deallocations ih | limited below remaining ih | recorded below calls ih =>
    rw [write, ih h]
    rfl

end Store

end RedBlack
