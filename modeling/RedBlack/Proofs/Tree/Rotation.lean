import RedBlack.Proofs.Shape.Rotation
import RedBlack.Proofs.Tree.Linked

namespace RedBlack

namespace Tree

variable {α κ : Type} {key : α → κ} {t u : Tree key} {side : Side} {x y : Shape.Links}

/-- The links of a tree. -/
def linkage (t : Tree key) : Linkage :=
  t.shape.linkage

/-- Rotates at the node in a slot; `none` if the slot is not linked. -/
def rotateAt (side : Side) (slot : Slot) (t : Tree key) : Option (Except Fault (Tree key)) :=
  (t.shape.rotateAt side slot).map fun turned => turned.map fun shape => { t with shape }

/-- What a rotation of a tree comes to: it turns the node of the line `x` down
    and raises its child, of the line `y`. It writes to four nodes at most, and
    all that the tree knows of its nodes stays as it was. -/
structure Turned (t : Tree key) (side : Side) (x y : Shape.Links) (u : Tree key) : Prop where
  rotates : t.rotateAt side x.slot = some (.ok u)
  /-- The links are those that the writes of the rotation come to. -/
  writes : t.linkage.rotate side x.slot = some u.linkage
  /-- The nodes stay in order. -/
  slots : u.shape.slots = t.shape.slots
  /-- Every node keeps its colour. -/
  colors : u.table.map (fun l => (l.slot, l.color)) = t.table.map fun l => (l.slot, l.color)
  /-- The items, the size, the ends and all else beside the links stay as they
      are. -/
  rest : u = { t with shape := u.shape }
  items : u.items = t.items
  /-- The ends are still the outermost nodes if they were. -/
  ends : t.leftmost = t.shape.slots.head? ∧ t.rightmost = t.shape.slots.getLast? →
    u.leftmost = u.shape.slots.head? ∧ u.rightmost = u.shape.slots.getLast?
  /-- Parents and children agree, and the root hangs under the header. -/
  agrees : u.linkage.Agrees
  /-- The links of no other nodes change than of the two, of the one between
      them and of their parent. -/
  others : ∀ l ∈ t.table, .node l.slot ∉ [.node x.slot, .node y.slot, y.child side, x.parent] → l ∈ u.table
  /-- The rotation to the other side restores the tree. -/
  back : u.rotateAt side.opposite y.slot = some (.ok t)
  /-- Its writes restore the links. -/
  writesBack : u.linkage.rotate side.opposite y.slot = some t.linkage

/-- In every tree whose links agree, and at every node with a child on the other
    side, a rotation keeps the order and the colours of the nodes, the items,
    the size and the ends; the links agree again, only those of four nodes have
    changed, and the rotation at the raised node to the other side restores the
    tree. -/
theorem rotation_relinks_four_nodes {raised : Slot} (hlinked : t.linkage.Agrees) (hx : x ∈ t.table)
    (hchild : x.child side.opposite = .node raised) : ∃ y ∈ t.table, y.slot = raised ∧ ∃ u, t.Turned side x y u := by
  obtain ⟨y, hy, rfl, _⟩ := hlinked.child_parent x hx side.opposite raised hchild
  refine ⟨y, hy, rfl, ?_⟩
  have hnodup : t.shape.slots.Nodup := by
    rw [← Shape.map_slot_links .header]
    exact hlinked.distinct
  obtain ⟨shape, hrotate, hback, hwrites, hwritesBack, hslots, hlines⟩ := Shape.exists_rotated hnodup hx hy hchild
  let u : Tree key := { t with shape }
  have htable : u.table =
      t.table.map (Shape.Links.rewired side (.node x.slot) (.node y.slot) (y.child side) x.parent) := hlines
  refine ⟨u, ?_, hwrites, hslots, ?_, rfl, ?_, ?_, ?_, ?_, ?_, hwritesBack⟩
  · rw [rotateAt, hrotate]
    rfl
  · rw [htable, List.map_map]
    exact List.map_congr_left fun l _ => by simp
  · exact congrArg (List.mapM t.itemAt) hslots
  · rintro ⟨hleftmost, hrightmost⟩
    exact ⟨by rw [hslots]; exact hleftmost, by rw [hslots]; exact hrightmost⟩
  · apply Shape.linkage_agrees
    rw [hslots]
    exact hnodup
  · intro l hl hother
    rw [htable, ← Shape.Links.rewired_of_notMem hother]
    exact List.mem_map_of_mem hl
  · rw [rotateAt, hback]
    rfl

/-- Five numbers, turned to the left at the root; the child raised is the new
    root and the node between the two stays between them. -/
theorem rotation_relinks_four_nodes_five :
    let t : Tree (id : Nat → Nat) :=
      { shape := .node .black (.leaf .black 0) 1 (.node .red (.leaf .black 2) 3 (.leaf .black 4))
        leftmost := some 0
        rightmost := some 4
        size := 5
        less := fun a b => decide (a < b)
        store := .arena ⟨#[.built 1, .built 2, .built 3, .built 4, .built 5], none⟩
        tag := 1 }
    ∃ y ∈ t.table, y.slot = 3 ∧ ∃ u, t.Turned .left ⟨1, .black, .header, .node 0, .node 3⟩ y u ∧
      u.shape = .node .red (.node .black (.leaf .black 0) 1 (.leaf .black 2)) 3 (.leaf .black 4) ∧
      u.items = .ok [1, 2, 3, 4, 5] := by
  intro t
  let x : Shape.Links := ⟨1, .black, .header, .node 0, .node 3⟩
  have hlinked : t.linkage.Agrees := Shape.linkage_agrees (by decide)
  have hx : x ∈ t.table := by decide
  have hchild : x.child (Side.opposite .left) = .node 3 := rfl
  obtain ⟨y, hy, hslot, u, hturned⟩ := rotation_relinks_four_nodes hlinked hx hchild
  refine ⟨y, hy, hslot, u, hturned, ?_, hturned.items.trans rfl⟩
  have hrotates : t.rotateAt .left 1 = some (.ok u) := hturned.rotates
  exact congrArg Tree.shape (Except.ok.inj (Option.some.inj hrotates.symm))

end Tree

end RedBlack
