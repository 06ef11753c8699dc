import RedBlack.Proofs.Order
import RedBlack.Proofs.Shape.Links
import RedBlack.Tree.View

namespace RedBlack

namespace Tree

variable {α κ : Type} {key : α → κ}

/-- The nodes in order with their links. -/
def table (t : Tree key) : List Shape.Links :=
  t.shape.links .header

/-- The structure of a red-black tree, without the order of its keys. The
    clauses speak of the table of links, of the ways down and of what the tree
    keeps at hand; no other notion of a well-formed tree occurs in them. -/
structure WellLinked (t : Tree key) : Prop where
  /-- The root is black, or missing. -/
  root_black : t.shape.color = .black
  /-- The root hangs under the header. -/
  root_parent : ∀ slot, t.shape.slot? = some slot → ∃ l ∈ t.table, l.slot = slot ∧ l.parent = .header
  /-- A child names the node it hangs under as its parent. -/
  child_parent : ∀ l ∈ t.table, ∀ side slot, l.child side = .node slot →
    ∃ m ∈ t.table, m.slot = slot ∧ m.parent = .node l.slot
  /-- A node hangs under the parent it names; only the root names the header. -/
  parent_child : ∀ m ∈ t.table, (m.parent = .header ∧ t.shape.slot? = some m.slot) ∨
    ∃ l ∈ t.table, m.parent = .node l.slot ∧ ∃ side, l.child side = .node m.slot
  /-- No two nodes share a slot. -/
  distinct : (t.table.map Shape.Links.slot).Nodup
  /-- No red node has a red child. -/
  no_red_red : ∀ l ∈ t.table, ∀ m ∈ t.table, ∀ side, l.color = .red → l.child side = .node m.slot →
    m.color = .black
  /-- All ways from the root to a missing child cross equally many black
      nodes. -/
  black_height : ∃ n, ∀ p : Path, p.fill .nil = t.shape → p.blacks = n
  leftmost : t.leftmost = (t.table.map Shape.Links.slot).head?
  rightmost : t.rightmost = (t.table.map Shape.Links.slot).getLast?
  /-- The size is the number of nodes. -/
  size : t.size = t.table.length
  /-- There are no more nodes than numbers for slots. -/
  bounded : t.size ≤ Handle.maxSlots
  /-- Every node can be read. -/
  readable : ∃ items, t.items = .ok items

/-- The items can be read, and none has a lesser key than an earlier one. -/
def KeysInOrder (t : Tree key) : Prop :=
  ∃ items, t.items = .ok items ∧ items.Pairwise fun a b => t.less (key b) (key a) = false

variable {t : Tree key} {entries : List (Slot × α)} {o : Outside α}

/-- The nodes are the lines of the table, each with the item of the entry in its
    place. -/
theorem Represents.nodes (h : t.Represents entries o) : t.nodes = .ok (t.table.zip (entries.map Prod.snd)) := by
  have hread (lines : List Shape.Links) (own : List (Slot × α)) (hslots : lines.map Shape.Links.slot = own.map Prod.fst)
      (hown : ∀ e ∈ own, e ∈ entries) :
      lines.mapM (fun l => do return (l, ← t.itemAt l.slot)) = .ok (lines.zip (own.map Prod.snd)) := by
    induction lines generalizing own with
    | nil => rfl
    | cons l more ih =>
      cases own with
      | nil => cases hslots
      | cons e rest =>
        obtain ⟨hslot, hrest⟩ := List.cons.inj hslots
        have hmore := ih rest hrest fun x hx => hown x (List.mem_cons_of_mem _ hx)
        rw [List.mapM_cons, hslot, h.itemAt (hown e List.mem_cons_self), hmore]
        rfl
  exact hread t.table entries ((Shape.map_slot_links .header t.shape).trans h.slots) fun _ he => he

theorem Represents.wellLinked (h : t.Represents entries o) : t.WellLinked := by
  have hslots : t.table.map Shape.Links.slot = t.shape.slots := Shape.map_slot_links .header t.shape
  constructor
  · exact h.shape.1
  · exact fun slot => Shape.root_parent
  · exact fun l hl side slot => Shape.child_parent hl
  · exact fun m hm => Shape.parent_child hm
  · rw [hslots]
    exact h.nodup
  · exact fun l hl m hm side => h.shape.no_red_red h.nodup hl hm
  · exact h.shape.exists_blacks
  · rw [hslots, h.slots, List.head?_map, h.leftmost]
  · rw [hslots, h.slots, List.getLast?_map, h.rightmost]
  · rw [← List.length_map Shape.Links.slot, hslots, h.slots, List.length_map, h.size]
  · rw [h.size]
    exact h.store.length_le
  · exact ⟨_, h.items⟩

theorem Represents.keysInOrder (h : t.Represents entries o) (hsorted : Sorted t.less key entries) :
    t.KeysInOrder :=
  ⟨_, h.items, List.pairwise_map.mpr hsorted⟩

end Tree

end RedBlack
