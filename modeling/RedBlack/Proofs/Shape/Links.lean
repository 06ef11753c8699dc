import Mathlib.Data.List.Nodup
import RedBlack.Proofs.Shape.Balance
import RedBlack.Proofs.Shape.Zoom

namespace RedBlack

namespace Shape

/-- The link to the child on a side. -/
def Links.child (side : Side) (l : Links) : Handle :=
  match side with
  | .left => l.left
  | .right => l.right

/-- The line of the node at the end of a path, given its subtrees. The way to a
    node and what hangs below it determine its line, so parents and children
    agree. -/
def lineAt (p : Path) (color : Color) (left : Shape) (slot : Slot) (right : Shape) : Links where
  slot := slot
  color := color
  parent := p.parent
  left := .ofChild left.slot?
  right := .ofChild right.slot?

end Shape

namespace Path

/-- How many black nodes lie on a path. -/
def blacks : Path → Nat
  | [] => 0
  | f :: up => f.color.weight + blacks up

theorem parent_cons (f : Frame) (up : Path) : parent (f :: up) = .node f.slot :=
  rfl

theorem mem_links_fill {p : Path} {t : Shape} {l : Shape.Links} (h : l ∈ t.links p.parent) :
    l ∈ (p.fill t).links .header := by
  induction p generalizing t with
  | nil => exact h
  | cons f up ih =>
    rw [fill_cons]
    apply ih
    rw [parent_cons] at h
    cases hside : f.side <;> simp [Frame.close, Shape.branch, Shape.links, hside, h]

theorem lineAt_mem_links (p : Path) (color : Color) (left : Shape) (slot : Slot) (right : Shape) :
    Shape.lineAt p color left slot right ∈ (p.fill (.node color left slot right)).links .header := by
  apply mem_links_fill
  simp [Shape.links, Shape.lineAt]

/-- The ways down to a subtree cross as many black nodes as the whole has
    more. -/
theorem exists_balanced_of_fill {p : Path} {t : Shape} {n : Nat} (h : (p.fill t).Balanced n) :
    ∃ m, t.Balanced m ∧ n = m + p.blacks := by
  induction p generalizing t with
  | nil => exact ⟨n, h, rfl⟩
  | cons f up ih =>
    obtain ⟨m, hclose, rfl⟩ := ih h
    rw [Frame.close, Shape.balanced_branch] at hclose
    obtain ⟨k, rfl, ht, _, _⟩ := hclose
    refine ⟨k, ht, ?_⟩
    rw [blacks]
    omega

end Path

namespace Shape

variable {t : Shape} {l m : Links}

theorem exists_lineAt {up : Path} (h : l ∈ t.links up.parent) :
    ∃ p color left slot right, p.fill (node color left slot right) = up.fill t ∧
      l = lineAt p color left slot right := by
  induction t generalizing up with
  | nil => cases h
  | node color left slot right ihl ihr =>
    rw [links, List.mem_append, List.mem_cons] at h
    obtain hleft | rfl | hright := h
    · let below : Path := ⟨.left, color, slot, right⟩ :: up
      have hbelow : l ∈ left.links below.parent := hleft
      exact ihl hbelow
    · exact ⟨up, color, left, slot, right, rfl, rfl⟩
    · let below : Path := ⟨.right, color, slot, left⟩ :: up
      have hbelow : l ∈ right.links below.parent := hright
      exact ihr hbelow

theorem exists_lineAt_of_mem (h : l ∈ t.links .header) :
    ∃ p color left slot right, p.fill (node color left slot right) = t ∧ l = lineAt p color left slot right := by
  have hroot : l ∈ t.links (Path.parent []) := h
  simpa using exists_lineAt hroot

theorem eq_of_slot_eq (hnodup : t.slots.Nodup) (hl : l ∈ t.links .header) (hm : m ∈ t.links .header)
    (hslot : l.slot = m.slot) : l = m := by
  rw [← map_slot_links .header] at hnodup
  exact List.inj_on_of_nodup_map hnodup hl hm hslot

theorem mem_slots_of_slot? {t : Shape} {slot : Slot} (h : t.slot? = some slot) : slot ∈ t.slots := by
  cases t with
  | nil => cases h
  | node color left s right =>
    obtain rfl : s = slot := Option.some.inj h
    simp [slots]

/-- The node at the top has its line, and the header is its parent. -/
theorem root_parent {slot : Slot} (h : t.slot? = some slot) :
    ∃ l ∈ t.links .header, l.slot = slot ∧ l.parent = .header := by
  cases t with
  | nil => cases h
  | node color left s right =>
    obtain rfl : s = slot := by simpa [slot?] using h
    exact ⟨_, Path.lineAt_mem_links [] color left s right, rfl, rfl⟩

theorem child_parent {side : Side} {slot : Slot} (hl : l ∈ t.links .header) (hchild : l.child side = .node slot) :
    ∃ m ∈ t.links .header, m.slot = slot ∧ m.parent = .node l.slot := by
  obtain ⟨p, color, left, s, right, rfl, rfl⟩ := exists_lineAt_of_mem hl
  cases side with
  | left =>
    cases left with
    | nil => cases hchild
    | node c ll ls lr =>
      obtain rfl : ls = slot := by simpa [Links.child, lineAt, slot?, Handle.ofChild] using hchild
      exact ⟨_, Path.lineAt_mem_links (⟨.left, color, s, right⟩ :: p) c ll ls lr, rfl, rfl⟩
  | right =>
    cases right with
    | nil => cases hchild
    | node c rl rs rr =>
      obtain rfl : rs = slot := by simpa [Links.child, lineAt, slot?, Handle.ofChild] using hchild
      exact ⟨_, Path.lineAt_mem_links (⟨.right, color, s, left⟩ :: p) c rl rs rr, rfl, rfl⟩

/-- A node hangs under the node it names as its parent, and under the header
    only as the root. -/
theorem parent_child (hm : m ∈ t.links .header) :
    (m.parent = .header ∧ t.slot? = some m.slot) ∨
      ∃ l ∈ t.links .header, m.parent = .node l.slot ∧ ∃ side, l.child side = .node m.slot := by
  obtain ⟨p, color, left, s, right, rfl, rfl⟩ := exists_lineAt_of_mem hm
  cases p with
  | nil => exact .inl ⟨rfl, rfl⟩
  | cons f up =>
    obtain ⟨side, c, slot, sibling⟩ := f
    cases side with
    | left =>
      exact .inr ⟨_, Path.lineAt_mem_links up c (node color left s right) slot sibling, rfl, .left, rfl⟩
    | right =>
      exact .inr ⟨_, Path.lineAt_mem_links up c sibling slot (node color left s right), rfl, .right, rfl⟩

/-- No red node has a red child, said along the links rather than along the ways
    down. -/
theorem IsRedBlack.no_red_red {side : Side} (h : t.IsRedBlack) (hnodup : t.slots.Nodup)
    (hl : l ∈ t.links .header) (hm : m ∈ t.links .header) (hred : l.color = .red)
    (hchild : l.child side = .node m.slot) : m.color = .black := by
  obtain ⟨p, color, left, s, right, rfl, rfl⟩ := exists_lineAt_of_mem hl
  obtain ⟨_, n, hbalanced⟩ := h
  obtain ⟨_, ⟨_, _, _, _, hblack⟩, _⟩ := Path.exists_balanced_of_fill hbalanced
  obtain ⟨hleft, hright⟩ := hblack hred
  cases side with
  | left =>
    cases left with
    | nil => cases hchild
    | node c ll ls lr =>
      have hline := Path.lineAt_mem_links (⟨.left, color, s, right⟩ :: p) c ll ls lr
      have hslot : ls = m.slot := by simpa [Links.child, lineAt, slot?, Handle.ofChild] using hchild
      rw [← eq_of_slot_eq hnodup hline hm hslot]
      exact hleft
  | right =>
    cases right with
    | nil => cases hchild
    | node c rl rs rr =>
      have hline := Path.lineAt_mem_links (⟨.right, color, s, left⟩ :: p) c rl rs rr
      have hslot : rs = m.slot := by simpa [Links.child, lineAt, slot?, Handle.ofChild] using hchild
      rw [← eq_of_slot_eq hnodup hline hm hslot]
      exact hright

/-- All ways down to a missing child cross equally many black nodes. -/
theorem IsRedBlack.exists_blacks (h : t.IsRedBlack) : ∃ n, ∀ p : Path, p.fill .nil = t → p.blacks = n := by
  obtain ⟨_, n, hbalanced⟩ := h
  refine ⟨n, ?_⟩
  rintro p rfl
  obtain ⟨m, hm, rfl⟩ := Path.exists_balanced_of_fill hbalanced
  have hzero : m = 0 := hm
  omega

end Shape

end RedBlack
