import Mathlib.Data.List.Basic
import RedBlack.Shape.Path

namespace RedBlack

namespace Path

@[simp] theorem slotsBefore_nil : slotsBefore [] = [] :=
  rfl

@[simp] theorem slotsAfter_nil : slotsAfter [] = [] :=
  rfl

theorem slotsBefore_cons (f : Frame) (up : Path) :
    slotsBefore (f :: up) =
      slotsBefore up ++ if f.side = .right then f.sibling.slots ++ [f.slot] else [] := by
  cases h : f.side <;> simp [slotsBefore, h]

theorem slotsAfter_cons (f : Frame) (up : Path) :
    slotsAfter (f :: up) =
      (if f.side = .left then f.slot :: f.sibling.slots else []) ++ slotsAfter up := by
  cases h : f.side <;> simp [slotsAfter, h]

/-- The nearest node above on the right holds the first slot after the
    subtree. -/
theorem nearest_right (p : Path) : p.nearest .right = (slotsAfter p).head? := by
  induction p with
  | nil => rfl
  | cons f up ih => cases h : f.side <;> simp [nearest, slotsAfter_cons, h, ih]

/-- The nearest node above on the left holds the last slot before the
    subtree. -/
theorem nearest_left (p : Path) : p.nearest .left = (slotsBefore p).getLast? := by
  induction p with
  | nil => rfl
  | cons f up ih => cases h : f.side <;> simp [nearest, slotsBefore_cons, h, ih]

end Path

namespace Shape

theorem zoom_eq_none (slot : Slot) (t : Shape) (path : Path) :
    t.zoom slot path = none ↔ slot ∉ t.slots := by
  induction t generalizing path with
  | nil => simp [zoom, slots]
  | node color left s right ihl ihr =>
    by_cases hs : s = slot
    · simp [zoom, slots, hs]
    · have hslot : slot ≠ s := Ne.symm hs
      cases hl : left.zoom slot (⟨.left, color, s, right⟩ :: path) with
      | none => simp [zoom, slots, hs, hslot, hl, ihr, (ihl _).mp hl]
      | some found =>
        have hmem : slot ∈ left.slots := by
          by_contra hnot
          rw [(ihl _).mpr hnot] at hl
          cases hl
        simp [zoom, slots, hs, hl, hmem]

end Shape

namespace Path

/-- A slot that lies neither before nor after a subtree is searched in the
    subtree. -/
theorem zoom_fill {slot : Slot} (p q : Path) (t : Shape) (hbefore : slot ∉ slotsBefore p)
    (hafter : slot ∉ slotsAfter p) : (fill p t).zoom slot q = t.zoom slot (p ++ q) := by
  induction p generalizing t q with
  | nil => rfl
  | cons f up ih =>
    obtain ⟨side, color, s, sibling⟩ := f
    cases side with
    | left =>
      simp only [slotsBefore, slotsAfter, List.cons_append, List.mem_cons, List.mem_append,
        not_or] at hbefore hafter
      rw [fill_cons, ih q _ hbefore hafter.2.2]
      have hsibling := (Shape.zoom_eq_none slot sibling (⟨.right, color, s, t⟩ :: (up ++ q))).mpr hafter.2.1
      simp only [Frame.close, Shape.branch, Shape.zoom, if_neg (Ne.symm hafter.1), List.cons_append,
        hsibling]
      cases t.zoom slot (⟨.left, color, s, sibling⟩ :: (up ++ q)) <;> rfl
    | right =>
      simp only [slotsBefore, slotsAfter, List.mem_cons, List.mem_append, List.not_mem_nil,
        or_false, not_or] at hbefore hafter
      rw [fill_cons, ih q _ hbefore.1.1 hafter]
      have hsibling := (Shape.zoom_eq_none slot sibling (⟨.left, color, s, t⟩ :: (up ++ q))).mpr hbefore.1.2
      simp only [Frame.close, Shape.branch, Shape.zoom, if_neg (Ne.symm hbefore.2),
        List.cons_append, hsibling]

/-- Without repeated slots, a node is found by the very way it was put in. -/
theorem zoom_fill_node {p : Path} {color : Color} {left right : Shape} {slot : Slot}
    (hnodup : (fill p (.node color left slot right)).slots.Nodup) :
    (fill p (.node color left slot right)).zoom slot [] =
      some (p, .node color left slot right) := by
  rw [slots_fill, List.nodup_append, List.nodup_append] at hnodup
  have hmem : slot ∈ (Shape.node color left slot right).slots := by simp [Shape.slots]
  obtain ⟨⟨_, _, hbefore⟩, _, hafter⟩ := hnodup
  rw [zoom_fill p [] _ (fun h => hbefore slot h slot hmem rfl)
    (fun h => hafter slot (List.mem_append_right _ hmem) slot h rfl)]
  simp [Shape.zoom]

end Path

namespace Shape

theorem exists_zoom {slot : Slot} {t : Shape} (hmem : slot ∈ t.slots) :
    ∃ p color left right, t.zoom slot [] = some (p, .node color left slot right) ∧
      p.fill (.node color left slot right) = t := by
  cases hzoom : t.zoom slot [] with
  | none => exact absurd hmem ((zoom_eq_none slot t []).mp hzoom)
  | some found =>
    obtain ⟨p, top⟩ := found
    have hslot := slot?_zoom hzoom
    have hfill := fill_zoom hzoom
    cases top with
    | nil => simp [slot?] at hslot
    | node color left s right =>
      obtain rfl : s = slot := by simpa [slot?] using hslot
      exact ⟨p, color, left, right, rfl, hfill⟩

/-- A node splits the slots into those before and those after it. In a shape
    without repeated slots the way to it is unique, and its neighbours are the
    slots next to it. -/
theorem slots_around {t : Shape} {p : Path} {color : Color} {left right : Shape} {slot : Slot}
    {before after : List Slot} (hnodup : t.slots.Nodup)
    (hfill : p.fill (.node color left slot right) = t) (hslots : t.slots = before ++ slot :: after) :
    before = p.slotsBefore ++ left.slots ∧ after = right.slots ++ p.slotsAfter := by
  have hsplit : before ++ slot :: after =
      (p.slotsBefore ++ left.slots) ++ slot :: (right.slots ++ p.slotsAfter) := by
    rw [← hslots, ← hfill, Path.slots_fill]
    simp [slots]
  rw [hslots, hsplit] at hnodup
  obtain ⟨_, hright, hapart⟩ := List.nodup_append.mp hnodup
  rw [eq_comm, List.append_cons_inj_of_notMem] at hsplit
  · exact ⟨hsplit.1.symm, hsplit.2.2.symm⟩
  · exact fun h => hapart slot h slot List.mem_cons_self rfl
  · exact (List.nodup_cons.mp hright).1

theorem neighbour_right {t : Shape} {slot : Slot} {before after : List Slot}
    (hnodup : t.slots.Nodup) (hslots : t.slots = before ++ slot :: after) :
    t.neighbour .right slot = some after.head? := by
  have hmem : slot ∈ t.slots := by simp [hslots]
  obtain ⟨p, color, left, right, hzoom, hfill⟩ := exists_zoom hmem
  obtain ⟨_, rfl⟩ := slots_around hnodup hfill hslots
  simp [neighbour, hzoom, child, extreme_left, Path.nearest_right, List.head?_append]

theorem neighbour_left {t : Shape} {slot : Slot} {before after : List Slot}
    (hnodup : t.slots.Nodup) (hslots : t.slots = before ++ slot :: after) :
    t.neighbour .left slot = some before.getLast? := by
  have hmem : slot ∈ t.slots := by simp [hslots]
  obtain ⟨p, color, left, right, hzoom, hfill⟩ := exists_zoom hmem
  obtain ⟨rfl, _⟩ := slots_around hnodup hfill hslots
  simp [neighbour, hzoom, child, extreme_right, Path.nearest_left, List.getLast?_append]

end Shape

end RedBlack
