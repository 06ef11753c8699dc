import RedBlack.Proofs.Wired.Focus

namespace RedBlack

open Shape (Links)

namespace Store

variable {α : Type} {s t u : Store (Links × α)} {slot other : Slot} {node : Links × α} {change : Links → Links}
  {parent : Handle} {shape : Shape} {side : Side} {color : Color} {near far : Shape}

theorem read_touch_self (h : s.read slot = .ok node) :
    (s.relink (Overlay.none.touch slot change)).read slot = .ok (change node.1, node.2) := by
  rw [read_relink, h, except_map, Overlay.touch_self]
  rfl

theorem read_touch_of_ne (hne : other ≠ slot) :
    (s.relink (Overlay.none.touch slot change)).read other = s.read other := by
  rw [read_relink]
  simp only [Overlay.touch_of_ne hne, Overlay.none]
  cases s.read other <;> rfl

theorem exists_read_touch (h : (s.relink (Overlay.none.touch slot change)).read other = .ok node) :
    ∃ old, s.read other = .ok old := by
  rw [read_relink] at h
  obtain ⟨old, hold, _⟩ := map_eq_ok.mp h
  exact ⟨old, hold⟩

/-- The nodes of a shape below a parent lie in the store, with the links that
    they have there and with any items. -/
def Lines (s : Store (Links × α)) (parent : Handle) (shape : Shape) : Prop :=
  ∀ line ∈ shape.links parent, ∃ item, s.read line.slot = .ok (line, item)

theorem lines_branch : s.Lines parent (.branch side color slot near far) ↔
    (∃ item, s.read slot = .ok (.facing side slot color parent (.ofChild near.slot?) (.ofChild far.slot?), item)) ∧
      s.Lines (.node slot) near ∧ s.Lines (.node slot) far := by
  cases side <;>
    simp only [Lines, Shape.branch, Shape.links, List.forall_mem_append, List.forall_mem_cons, Links.facing] <;> tauto

theorem lines_node {left right : Shape} : s.Lines parent (.node color left slot right) ↔
    (∃ item, s.read slot = .ok (⟨slot, color, parent, .ofChild left.slot?, .ofChild right.slot?⟩, item)) ∧
      s.Lines (.node slot) left ∧ s.Lines (.node slot) right := by
  have hbranch : Shape.node color left slot right = .branch .left color slot left right := rfl
  rw [hbranch, lines_branch]
  rfl

theorem Lines.exists_read (h : s.Lines parent shape) {slot : Slot} (hslot : slot ∈ shape.slots) :
    ∃ node, s.read slot = .ok node := by
  rw [← Shape.map_slot_links parent, List.mem_map] at hslot
  obtain ⟨line, hline, rfl⟩ := hslot
  obtain ⟨item, hitem⟩ := h line hline
  exact ⟨_, hitem⟩

/-- Every node that is in the one store is in the other as well, as it is. -/
def Keeps (s t : Store (Links × α)) : Prop :=
  ∀ slot node, s.read slot = .ok node → t.read slot = .ok node

theorem Keeps.trans (h : s.Keeps t) (h' : t.Keeps u) : s.Keeps u :=
  fun slot node hread => h' slot node (h slot node hread)

theorem Keeps.lines (h : s.Keeps t) (hlines : s.Lines parent shape) : t.Lines parent shape := by
  intro line hline
  obtain ⟨item, hread⟩ := hlines line hline
  exact ⟨item, h _ _ hread⟩

/-- Beside the nodes of the one store, which are as they were, the other one
    holds those of a shape in slots of their own. -/
structure Sprouts (s t : Store (Links × α)) (parent : Handle) (shape : Shape) : Prop where
  keeps : s.Keeps t
  lines : t.Lines parent shape
  nodup : shape.slots.Nodup
  fresh : ∀ slot ∈ shape.slots, ∀ node, s.read slot ≠ .ok node

namespace Sprouts

theorem trans (h : s.Sprouts t parent shape) (hkeeps : t.Keeps u) : s.Sprouts u parent shape :=
  { h with keeps := h.keeps.trans hkeeps, lines := hkeeps.lines h.lines }

/-- A node that was there before may be relinked without the new ones being
    touched. -/
theorem touch (h : s.Sprouts t parent shape) (change : Links → Links) (hslot : ∃ node, s.read slot = .ok node) :
    (s.relink (Overlay.none.touch slot change)).Sprouts (t.relink (Overlay.none.touch slot change)) parent shape where
  keeps other node hread := by
    obtain rfl | hne := eq_or_ne other slot
    · obtain ⟨old, hold⟩ := hslot
      rw [read_touch_self hold] at hread
      rw [read_touch_self (h.keeps _ _ hold), hread]
    · rw [read_touch_of_ne hne] at hread ⊢
      exact h.keeps other node hread
  lines line hline := by
    have hmem := Shape.mem_slots_of_mem_links hline
    have hne : line.slot ≠ slot := by
      rintro heq
      obtain ⟨node, hnode⟩ := hslot
      exact h.fresh line.slot hmem node (heq ▸ hnode)
    rw [read_touch_of_ne hne]
    exact h.lines line hline
  nodup := h.nodup
  fresh other hother node hread := by
    obtain ⟨old, hold⟩ := exists_read_touch hread
    exact h.fresh other hother old hold

/-- A new subtree that hangs where a new node lacked a child makes one subtree
    with what is there already. -/
theorem join {top : Slot} {x : Shape} (side : Side) (h : s.Sprouts t parent (.branch side color top .nil far))
    (hx : (t.relink (Overlay.none.touch top (Links.withChild side (.ofChild x.slot?)))).Sprouts u (.node top) x) :
    s.Sprouts u parent (.branch side color top x far) := by
  let t' := t.relink (Overlay.none.touch top (Links.withChild side (.ofChild x.slot?)))
  obtain ⟨⟨item, hline⟩, _, hfar⟩ := lines_branch.mp h.lines
  have htop : top ∈ (Shape.branch side color top .nil far).slots := Shape.mem_slots_branch.mpr (.inl rfl)
  have hslotfar {slot : Slot} (hslot : slot ∈ far.slots) : slot ∈ (Shape.branch side color top .nil far).slots :=
    Shape.mem_slots_branch.mpr (.inr (.inr hslot))
  obtain ⟨_, htopfar, _, hnodupfar, _⟩ := Shape.nodup_slots_branch.mp h.nodup
  have hne {slot : Slot} (hslot : slot ∈ far.slots) : slot ≠ top := fun heq => htopfar (heq ▸ hslot)
  have htop' : t'.read top = .ok (.facing side top color parent (.ofChild x.slot?) (.ofChild far.slot?), item) := by
    rw [read_touch_self hline, Links.withChild_facing]
  have hfar' : t'.Lines (.node top) far := by
    intro line hmem
    rw [read_touch_of_ne (hne (Shape.mem_slots_of_mem_links hmem))]
    exact hfar line hmem
  refine ⟨?_, lines_branch.mpr ⟨⟨item, hx.keeps _ _ htop'⟩, hx.lines, hx.keeps.lines hfar'⟩, ?_, ?_⟩
  · intro slot node hread
    have hslot : slot ≠ top := fun heq => h.fresh top htop node (heq ▸ hread)
    exact hx.keeps slot node ((read_touch_of_ne hslot).trans (h.keeps slot node hread))
  · have htopx : top ∉ x.slots := fun hmem => hx.fresh top hmem _ htop'
    have hapart : x.slots.Disjoint far.slots := by
      intro slot hslot hmem
      obtain ⟨node, hnode⟩ := hfar'.exists_read hmem
      exact hx.fresh slot hslot node hnode
    exact Shape.nodup_slots_branch.mpr ⟨htopx, htopfar, hx.nodup, hnodupfar, hapart⟩
  · intro slot hslot node hread
    obtain rfl | hslot | hslot := Shape.mem_slots_branch.mp hslot
    · exact h.fresh slot htop node hread
    · obtain rfl | hne := eq_or_ne slot top
      · exact h.fresh slot htop node hread
      · exact hx.fresh slot hslot node ((read_touch_of_ne hne).trans (h.keeps slot node hread))
    · exact h.fresh slot (hslotfar hslot) node hread

theorem reparent_leaf {top : Slot} {new : Handle} (h : s.Sprouts t parent (.leaf color top)) :
    s.Sprouts (t.relink (Overlay.none.touch top (Links.withParent new))) new (.leaf color top) where
  keeps slot node hread := by
    have hne : slot ≠ top := by
      rintro rfl
      exact h.fresh slot List.mem_cons_self node hread
    rw [read_touch_of_ne hne]
    exact h.keeps slot node hread
  lines line hline := by
    obtain rfl := List.mem_singleton.mp (show line ∈ [⟨top, color, new, .nil, .nil⟩] from hline)
    obtain ⟨item, hread⟩ := h.lines ⟨top, color, parent, .nil, .nil⟩ List.mem_cons_self
    exact ⟨item, read_touch_self hread⟩
  nodup := h.nodup
  fresh := h.fresh

end Sprouts

end Store

end RedBlack
