import RedBlack.Proofs.Shape.Links

namespace RedBlack

namespace Shape

namespace Links

/-- The line with another child on a side. -/
def withChild (side : Side) (child : Handle) (l : Links) : Links :=
  match side with
  | .left => { l with left := child }
  | .right => { l with right := child }

/-- The line with another parent. -/
def withParent (parent : Handle) (l : Links) : Links :=
  { l with parent }

/-- The line with a new child in the place of an old one. -/
def replaceChild (old new : Handle) (l : Links) : Links :=
  l.withChild (if l.left = old then .left else .right) new

@[simp] theorem slot_withChild (side : Side) (child : Handle) (l : Links) : (l.withChild side child).slot = l.slot := by
  cases side <;> rfl

@[simp] theorem color_withChild (side : Side) (child : Handle) (l : Links) :
    (l.withChild side child).color = l.color := by
  cases side <;> rfl

@[simp] theorem parent_withChild (side : Side) (child : Handle) (l : Links) :
    (l.withChild side child).parent = l.parent := by
  cases side <;> rfl

@[simp] theorem slot_withParent (parent : Handle) (l : Links) : (l.withParent parent).slot = l.slot :=
  rfl

@[simp] theorem color_withParent (parent : Handle) (l : Links) : (l.withParent parent).color = l.color :=
  rfl

@[simp] theorem slot_replaceChild (old new : Handle) (l : Links) : (l.replaceChild old new).slot = l.slot :=
  l.slot_withChild _ new

@[simp] theorem color_replaceChild (old new : Handle) (l : Links) : (l.replaceChild old new).color = l.color :=
  l.color_withChild _ new

end Links

end Shape

/-- The links of a tree: the one to its root, and the lines of its nodes in
    order. They are written separately, so that what is written to them one
    after the other need not make up a tree in between. -/
structure Linkage where
  root : Handle
  lines : List Shape.Links
  deriving DecidableEq, Repr

namespace Linkage

/-- The line of the node in a slot. -/
def line? (slot : Slot) (g : Linkage) : Option Shape.Links :=
  g.lines.find? (·.slot = slot)

/-- Writes to the line of the node that a link leads to. -/
def write (link : Handle) (change : Shape.Links → Shape.Links) (g : Linkage) : Linkage :=
  { g with lines := g.lines.map fun l => if .node l.slot = link then change l else l }

/-- Writes the child of a node on a side. -/
def setChild (side : Side) (node child : Handle) (g : Linkage) : Linkage :=
  g.write node (·.withChild side child)

/-- Writes the parent of a node; a missing node has none. -/
def setParent (node parent : Handle) (g : Linkage) : Linkage :=
  g.write node (·.withParent parent)

/-- Writes a new child into the link of a parent that led to an old one. The
    header has only the link to the root. -/
def replaceChild (parent old new : Handle) (g : Linkage) : Linkage :=
  { g.write parent (·.replaceChild old new) with root := if parent = .header then new else g.root }

/-- Links agree: the root hangs under the header, a child names the node it
    hangs under as its parent, a node hangs under the parent it names, and no
    two nodes share a slot. -/
structure Agrees (g : Linkage) : Prop where
  root : ∀ slot, g.root = .node slot → ∃ l ∈ g.lines, l.slot = slot ∧ l.parent = .header
  child_parent : ∀ l ∈ g.lines, ∀ side slot, l.child side = .node slot →
    ∃ m ∈ g.lines, m.slot = slot ∧ m.parent = .node l.slot
  parent_child : ∀ m ∈ g.lines, (m.parent = .header ∧ g.root = .node m.slot) ∨
    ∃ l ∈ g.lines, m.parent = .node l.slot ∧ ∃ side, l.child side = .node m.slot
  distinct : (g.lines.map Shape.Links.slot).Nodup

theorem Agrees.line?_eq {g : Linkage} {l : Shape.Links} (h : g.Agrees) (hl : l ∈ g.lines) :
    g.line? l.slot = some l := by
  cases hfind : g.line? l.slot with
  | none =>
    have hmiss := List.find?_eq_none.mp hfind l hl
    simp at hmiss
  | some m =>
    have hslot : m.slot = l.slot := by simpa using List.find?_some hfind
    rw [List.inj_on_of_nodup_map h.distinct (List.mem_of_find?_eq_some hfind) hl hslot]

theorem slot_of_line? {g : Linkage} {slot : Slot} {l : Shape.Links} (h : g.line? slot = some l) : l.slot = slot := by
  simpa using List.find?_some h

/-- What is written to a line is found there, and every other line as it was. -/
theorem line?_write (link : Handle) (slot : Slot) {change : Shape.Links → Shape.Links} (g : Linkage)
    (hchange : ∀ l, (change l).slot = l.slot) :
    (g.write link change).line? slot = (g.line? slot).map fun l => if .node l.slot = link then change l else l := by
  have hslot (l : Shape.Links) : (if .node l.slot = link then change l else l).slot = l.slot := by
    split
    · exact hchange l
    · rfl
  simp only [line?, write, List.find?_map, Function.comp_def, hslot]

end Linkage

namespace Shape

/-- The links that a shape has as a tree of its own. -/
def linkage (t : Shape) : Linkage where
  root := .ofChild t.slot?
  lines := t.links .header

variable {t : Shape}

theorem linkage_agrees (hnodup : t.slots.Nodup) : t.linkage.Agrees where
  root slot hroot := by
    cases hslot : t.slot? with
    | none => simp [linkage, hslot, Handle.ofChild] at hroot
    | some top =>
      obtain rfl : top = slot := by simpa [linkage, hslot, Handle.ofChild] using hroot
      exact root_parent hslot
  child_parent _ hl _ _ := child_parent hl
  parent_child m hm := by
    refine (parent_child hm).imp_left ?_
    rintro ⟨hparent, hslot⟩
    exact ⟨hparent, by simp [linkage, hslot, Handle.ofChild]⟩
  distinct := by
    rw [linkage, map_slot_links]
    exact hnodup

theorem mem_slots_of_mem_links {parent : Handle} {l : Links} (h : l ∈ t.links parent) : l.slot ∈ t.slots := by
  rw [← map_slot_links parent]
  exact List.mem_map_of_mem h

/-- A change of lines that leaves all those of a shape alone. -/
theorem map_links_eq_self {change : Links → Links} (h : ∀ l, l.slot ∈ t.slots → change l = l) (parent : Handle) :
    (t.links parent).map change = t.links parent := by
  have hsame : (t.links parent).map change = (t.links parent).map id :=
    List.map_congr_left fun l hl => h l (mem_slots_of_mem_links hl)
  rw [hsame, List.map_id]

@[simp] theorem slot?_branch (side : Side) (color : Color) (slot : Slot) (near far : Shape) :
    (branch side color slot near far).slot? = some slot := by
  cases side <;> rfl

end Shape

/-- A change of lines that leaves those around a subtree alone makes of the
    whole what it makes of the subtree. -/
theorem Path.map_links_fill {change : Shape.Links → Shape.Links} {t u : Shape} (p : Path)
    (haround : ∀ l, l.slot ∈ p.slotsBefore ∨ l.slot ∈ p.slotsAfter → change l = l) (hslot : u.slot? = t.slot?)
    (h : (t.links p.parent).map change = u.links p.parent) :
    ((p.fill t).links .header).map change = (p.fill u).links .header := by
  induction p generalizing t u with
  | nil => exact h
  | cons f up ih =>
    obtain ⟨side, color, slot, sibling⟩ := f
    rw [fill_cons, fill_cons]
    have hline (l : Shape.Links) (hl : l.slot = slot) : change l = l :=
      haround l (by cases side <;> simp [slotsBefore, slotsAfter, hl])
    have hsibling : (sibling.links (.node slot)).map change = sibling.links (.node slot) :=
      Shape.map_links_eq_self (fun l hl => haround l (by cases side <;> simp [slotsBefore, slotsAfter, hl])) _
    rw [parent_cons] at h
    apply ih
    · intro l hl
      apply haround
      cases side <;> simp only [slotsBefore, slotsAfter, List.mem_append, List.mem_cons] <;> tauto
    · cases side <;> rfl
    · cases side <;> simp [Frame.close, Shape.branch, Shape.links, h, hsibling, hline, hslot]

end RedBlack
