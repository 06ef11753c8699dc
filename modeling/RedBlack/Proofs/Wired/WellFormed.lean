import RedBlack.Proofs.Wired.Copying

namespace RedBlack

open Shape (Links)

namespace Store

variable {α : Type} {s : Store (Links × α)} {shape : Shape} {parent : Handle} {n : Nat}

/-- A link leads to a red node. -/
def RedAt (s : Store (Links × α)) (link : Handle) : Prop :=
  ∃ node, s.node link = .ok node ∧ node.1.color = .red

/-- A walk over the links that are stored, from one that leads down from
    `parent`: every node names as its parent the node, or the header, from which
    it was reached; no red node has a red child; and all ways down from a node
    cross equally many black nodes. It meets the slots in this order, and `n`
    black nodes on every way down. -/
inductive Walks (s : Store (Links × α)) : Handle → Handle → List Slot → Nat → Prop where
  | nil {parent : Handle} : s.Walks parent .nil [] 0
  | node {parent : Handle} {slot : Slot} {node : Links} {item : α} {lower upper : List Slot} {n : Nat} :
    s.read slot = .ok (node, item) → node.parent = parent →
    (node.color = .red → ¬ s.RedAt node.left ∧ ¬ s.RedAt node.right) →
    s.Walks (.node slot) node.left lower n → s.Walks (.node slot) node.right upper n →
    s.Walks parent (.node slot) (lower ++ slot :: upper) (n + node.color.weight)

theorem Lines.redAt_iff (h : s.Lines parent shape) : s.RedAt (.ofChild shape.slot?) ↔ shape.color = .red := by
  cases shape with
  | nil => exact ⟨nofun, nofun⟩
  | node color left slot right =>
    obtain ⟨⟨item, hread⟩, _⟩ := lines_node.mp h
    have hnode : (s.node (.node slot)) = .ok (⟨slot, color, parent, .ofChild left.slot?, .ofChild right.slot?⟩, item) :=
      hread
    constructor
    · rintro ⟨node, hfound, hred⟩
      obtain rfl := Except.ok.inj (hnode.symm.trans hfound)
      exact hred
    · exact fun hred => ⟨_, hnode, hred⟩

theorem Lines.walks (h : s.Lines parent shape) (hbalanced : shape.Balanced n) :
    s.Walks parent (.ofChild shape.slot?) shape.slots n := by
  induction shape generalizing parent n with
  | nil =>
    obtain rfl : n = 0 := hbalanced
    exact .nil
  | node color left slot right ihl ihr =>
    obtain ⟨m, rfl, hleft, hright, hred⟩ := hbalanced
    obtain ⟨⟨item, hread⟩, hlower, hupper⟩ := lines_node.mp h
    have hchildren : color = .red → ¬ s.RedAt (.ofChild left.slot?) ∧ ¬ s.RedAt (.ofChild right.slot?) := by
      intro hcolor
      obtain ⟨hblack, hblack'⟩ := hred hcolor
      rw [hlower.redAt_iff, hupper.redAt_iff, hblack, hblack']
      exact ⟨nofun, nofun⟩
    exact .node hread rfl hchildren (ihl hlower hleft) (ihr hupper hright)

end Store

namespace Wired

variable {α κ : Type} {key : α → κ} {g : Wired α} {t : Tree key} {entries : List (Slot × α)} {o : Outside α}

/-- The links that are stored make up a red-black tree whose nodes lie in these
    slots in order. Nothing is said of any shape: the walk goes by the links
    alone. -/
structure WellFormed (g : Wired α) (slots : List Slot) : Prop where
  walk : ∃ n, g.store.Walks .header g.root slots n
  root_black : ¬ g.store.RedAt g.root
  distinct : slots.Nodup
  leftmost : g.leftmost = .ofEnd slots.head?
  rightmost : g.rightmost = .ofEnd slots.getLast?
  size : g.size = slots.length
  /-- There are no more nodes than numbers for slots. -/
  bounded : g.size ≤ Handle.maxSlots

/-- The items in the slots can be read, and none has a lesser key than an
    earlier one. -/
def KeysInOrder (g : Wired α) (less : κ → κ → Bool) (key : α → κ) (slots : List Slot) : Prop :=
  ∃ nodes, slots.mapM g.store.read = .ok nodes ∧ nodes.Pairwise fun a b => less (key b.2) (key a.2) = false

theorem Carries.wellFormed (hg : g.Carries t) (h : t.Represents entries o) : g.WellFormed t.shape.slots where
  walk := by
    obtain ⟨_, n, hbalanced⟩ := h.shape
    rw [hg.links.root]
    exact ⟨n, Store.Lines.walks hg.links.lines hbalanced⟩
  root_black := by
    rw [hg.links.root, Store.Lines.redAt_iff hg.links.lines, h.shape.1]
    nofun
  distinct := h.nodup
  leftmost := by rw [hg.leftmost, h.leftmost, h.slots, List.head?_map]
  rightmost := by rw [hg.rightmost, h.rightmost, h.slots, List.getLast?_map]
  size := by rw [hg.size, h.size, h.slots, List.length_map]
  bounded := by
    rw [hg.size, h.size]
    exact h.store.length_le

theorem Carries.keysInOrder (hg : g.Carries t) (h : t.Represents entries o) (hsorted : Sorted t.less key entries) :
    g.KeysInOrder t.less key t.shape.slots := by
  have hread (own : List (Slot × α)) (hown : ∀ e ∈ own, e ∈ entries) :
      ∃ nodes, (own.map Prod.fst).mapM g.store.read = .ok nodes ∧ nodes.map Prod.snd = own.map Prod.snd := by
    induction own with
    | nil => exact ⟨[], rfl, rfl⟩
    | cons e rest ih =>
      obtain ⟨nodes, hnodes, hitems⟩ := ih fun x hx => hown x (List.mem_cons_of_mem _ hx)
      have hitem : (g.store.map Prod.snd).read e.1 = .ok e.2 := by
        rw [hg.store]
        exact h.itemAt (hown e List.mem_cons_self)
      rw [Store.read_map] at hitem
      obtain ⟨node, hnode, heq⟩ := map_eq_ok.mp hitem
      refine ⟨node :: nodes, ?_, by rw [List.map_cons, List.map_cons, heq, hitems]⟩
      rw [List.map_cons, List.mapM_cons, hnode, ok_bind, hnodes]
      rfl
  obtain ⟨nodes, hnodes, hitems⟩ := hread entries fun _ he => he
  refine ⟨nodes, h.slots ▸ hnodes, ?_⟩
  have hpairwise : (nodes.map Prod.snd).Pairwise fun a b => t.less (key b) (key a) = false := by
    rw [hitems]
    exact List.pairwise_map.mpr hsorted
  exact List.pairwise_map.mp hpairwise

end Wired

end RedBlack
