import RedBlack.Proofs.Tree.Teardown
import RedBlack.Proofs.Wired.Pruning

namespace RedBlack

open Shape (Links)

namespace Wired

variable {α κ : Type} {key : α → κ}

/-- A tree without nodes over a store. -/
def empty (store : Store (Links × α)) : Wired α where
  root := .nil
  leftmost := .header
  rightmost := .header
  size := 0
  store := store

/-- The links that are stored are those of a tree: its nodes hold the links that
    its shape gives them, the header leads to its root and to its ends, and its
    items lie in the same slots of a store with the same layers. -/
structure Carries (g : Wired α) (t : Tree key) : Prop where
  links : g.Holds t.shape
  leftmost : g.leftmost = .ofEnd t.leftmost
  rightmost : g.rightmost = .ofEnd t.rightmost
  size : g.size = t.size
  store : g.store.map Prod.snd = t.store

variable {g : Wired α} {t : Tree key} {shape : Shape} {store : Store (Links × α)} {s : Store α}

/-- The links of a shape outlive a change to the store that keeps the nodes of
    the shape. -/
theorem Holds.withStore (h : g.Holds shape)
    (hkeep : ∀ slot ∈ shape.slots, ∀ line item, g.store.read slot = .ok (line, item) →
      ∃ item, store.read slot = .ok (line, item)) : ({ g with store } : Wired α).Holds shape where
  root := h.root
  lines line hline := by
    obtain ⟨item, hread⟩ := h.lines line hline
    exact hkeep line.slot (Shape.mem_slots_of_mem_links hline) _ _ hread

theorem Carries.withStore (h : g.Carries t) (hstore : store.map Prod.snd = s)
    (hkeep : ∀ slot ∈ t.shape.slots, ∀ line item, g.store.read slot = .ok (line, item) →
      ∃ item, store.read slot = .ok (line, item)) :
    ({ g with store } : Wired α).Carries ({ t with store := s } : Tree key) :=
  { h with links := h.links.withStore hkeep, store := hstore }

theorem carries_empty {less : κ → κ → Bool} {tag : UInt64} (hstore : store.map Prod.snd = s) :
    (empty store).Carries (Tree.empty key less s tag) where
  links := ⟨rfl, nofun⟩
  leftmost := rfl
  rightmost := rfl
  size := rfl
  store := hstore

end Wired

namespace Rewiring

variable {α ρ : Type}

/-- Asks something of the store. -/
def request (ask : Store (Links × α) → Except Fault (ρ × Store (Links × α))) : Rewiring α ρ := do
  let g ← get
  let (answer, store) ← ask g.store
  set { g with store }
  return answer

theorem leads_request {g : Wired α} {answer : ρ} {store : Store (Links × α)}
    (ask : Store (Links × α) → Except Fault (ρ × Store (Links × α))) (h : ask g.store = .ok (answer, store)) :
    (request ask).Leads g answer { g with store } := by
  refine (leads_get g).bind ?_
  rw [h]
  rfl

end Rewiring

/-- One write to a tree or to its store. All operations on a tree are made up of
    these, and each of them is also written link by link. -/
inductive Move (α : Type) where
  | allocate
  | construct (slot : Slot) (item : α)
  | deallocate (slot : Slot)
  /-- Another item takes the place of the one in a slot. -/
  | replace (slot : Slot) (item : α)
  | attach (slot : Slot) (place : Place)
  | unlink (slot : Slot)
  | clear
  | setBudget (budget : Nat)

namespace Move

variable {α κ : Type} {key : α → κ}

/-- What the write does to a tree. -/
def act : Move α → Tree key → Except Fault (Tree key)
  | allocate, t => do
    let (_, store) ← t.store.allocate
    return { t with store }
  | construct slot item, t => do
    return { t with store := ← t.store.construct slot item }
  | deallocate slot, t => do
    let (_, store) ← t.store.deallocate slot
    return { t with store }
  | replace slot item, t => do
    return { t with store := ← t.store.write slot item }
  | attach slot place, t => t.attach slot place
  | unlink slot, t => do
    let t ← t.detach slot
    return { t with size := ← checkedSub t.size 1 }
  | clear, t => do
    let store ← t.shape.releaseAll t.store
    return { t with shape := .nil, leftmost := none, rightmost := none, size := 0, store }
  | setBudget budget, t => .ok { t with store := t.store.setBudget budget }

/-- What the write does to the links that are stored. A new node is red and
    hangs nowhere. No loop takes more rounds than there are nodes, so one round
    more than that always ends it. -/
def wire : Move α → Rewiring α Unit
  | allocate => do
    let _ ← Rewiring.request Store.allocate
  | construct slot item => Rewiring.request fun s => do
    return ((), ← s.construct slot (⟨slot, .red, .nil, .nil, .nil⟩, item))
  | deallocate slot => do
    let _ ← Rewiring.request (Store.deallocate slot)
  | replace slot item => Rewiring.request fun s => do
    return ((), ← s.write slot ((← s.read slot).1, item))
  | attach slot place => do
    Rewiring.attach ((← get).size + 1) slot place
  | unlink slot => do
    Rewiring.unlink ((← get).size + 1) (.node slot)
    let g ← get
    set { g with size := ← checkedSub g.size 1 }
  | clear => do
    let g ← get
    let store ← (g.store.releaseBelow (g.size + 1) g.root : OptionT (Except Fault) _)
    set (Wired.empty store)
  | setBudget budget => modify fun g => { g with store := g.store.setBudget budget }

/-- A node that is hung into a tree comes from outside, and a slot that is given
    back lies outside; one whose item is replaced has one. -/
def Fits (t : Tree key) : Move α → Prop
  | deallocate slot => slot ∉ t.shape.slots
  | replace slot _ => ∃ item, t.itemAt slot = .ok item
  | attach slot _ => slot ∉ t.shape.slots ∧ ∃ item, t.itemAt slot = .ok item
  | _ => True

end Move

@[simp] theorem Handle.ofEnd_eq_node {a : Option Slot} {slot : Slot} : ofEnd a = node slot ↔ a = some slot := by
  cases a <;> simp [ofEnd]

theorem Shape.free_of_attach {t : Shape} {slot : Slot} {place : Place} {r : Repaired}
    (h : t.attach slot place = .ok r) : t.Free place := by
  cases place with
  | root =>
    cases t with
    | nil => rfl
    | node => cases h
  | under parent side =>
    rw [attach] at h
    split at h
    · next path color left s right hzoom =>
      rw [Free, vacant?, hzoom]
      cases side <;> cases left <;> cases right <;> first | rfl | cases h
    · cases h

theorem Shape.height_le_size (t : Shape) : t.height ≤ t.size := by
  induction t with
  | nil => exact Nat.le_refl 0
  | node color left slot right ihl ihr =>
    rw [height, size]
    omega

namespace Wired

variable {α κ : Type} {key : α → κ} {g : Wired α} {t u : Tree key}

/-- The ends that the header is given once a node is gone are those of the tree
    without it. -/
theorem Carries.without (h : g.Carries t) (slot : Slot) :
    (g.without slot t.shape).leftmost = .ofEnd (t.endsWithout slot).1 ∧
      (g.without slot t.shape).rightmost = .ofEnd (t.endsWithout slot).2 ∧
      (g.without slot t.shape).size = g.size ∧ (g.without slot t.shape).store = g.store := by
  cases hzoom : t.shape.zoom slot [] with
  | none =>
    simp only [Wired.without, Tree.endsWithout, hzoom]
    exact ⟨h.leftmost, h.rightmost, trivial, trivial⟩
  | some found =>
    obtain ⟨up, _ | ⟨color, left, slot', right⟩⟩ := found
    · simp only [Wired.without, Tree.endsWithout, hzoom]
      exact ⟨h.leftmost, h.rightmost, trivial, trivial⟩
    · simp only [Wired.without, Tree.endsWithout, hzoom]
      by_cases htwo : left ≠ .nil ∧ right ≠ .nil
      · rw [if_pos htwo, if_pos htwo]
        exact ⟨h.leftmost, h.rightmost, rfl, rfl⟩
      · rw [if_neg htwo, if_neg htwo]
        refine ⟨?_, ?_, rfl, rfl⟩
        · simp only [bypassed, h.leftmost, Handle.ofEnd_eq_node]
          split <;> rfl
        · simp only [bypassed, h.rightmost, Handle.ofEnd_eq_node]
          split <;> rfl

theorem Carries.entered (h : g.Carries t) (slot : Slot) (place : Place) :
    (g.entered slot place).leftmost = .ofEnd (t.endsWith slot place).1 ∧
      (g.entered slot place).rightmost = .ofEnd (t.endsWith slot place).2 := by
  cases place with
  | root => exact ⟨rfl, rfl⟩
  | under parent side =>
    cases side with
    | left =>
      simp only [Wired.entered, Tree.endsWith, h.leftmost, eq_comm (a := Handle.node parent), Handle.ofEnd_eq_node]
      split
      · exact ⟨rfl, h.rightmost⟩
      · exact ⟨h.leftmost, h.rightmost⟩
    | right =>
      simp only [Wired.entered, Tree.endsWith, h.rightmost, eq_comm (a := Handle.node parent), Handle.ofEnd_eq_node]
      split
      · exact ⟨h.leftmost, rfl⟩
      · exact ⟨h.leftmost, h.rightmost⟩

end Wired

namespace Move

variable {α κ : Type} {key : α → κ} {g : Wired α} {t u : Tree key} {m : Move α}

/-- The links after a write carry the tree after it, and the write ends without
    a fault. -/
def Wires (m : Move α) (g : Wired α) (u : Tree key) : Prop :=
  ∃ g', m.wire.Leads g () g' ∧ g'.Carries u

theorem wires_allocate (hg : g.Carries t) (hact : allocate.act t = .ok u) : allocate.Wires g u := by
  obtain ⟨⟨answer, s⟩, hrun, hu⟩ := bind_eq_ok.mp hact
  obtain rfl := Except.ok.inj hu
  rw [← hg.store, Store.allocate_map] at hrun
  obtain ⟨⟨given, store⟩, hgiven, heq⟩ := map_eq_ok.mp hrun
  obtain ⟨rfl, rfl⟩ := Prod.mk.inj heq
  refine ⟨{ g with store }, (Rewiring.leads_request _ hgiven).bind (.pure _ _), hg.withStore rfl ?_⟩
  exact fun slot _ line item hread => ⟨item, Store.read_of_allocate hgiven hread⟩

theorem wires_construct {slot : Slot} {item : α} (hg : g.Carries t) (hact : (construct slot item).act t = .ok u) :
    (construct slot item).Wires g u := by
  obtain ⟨s, hrun, hu⟩ := bind_eq_ok.mp hact
  obtain rfl := Except.ok.inj hu
  let node : Links × α := (⟨slot, .red, .nil, .nil, .nil⟩, item)
  rw [← hg.store, show item = node.2 from rfl, Store.construct_map] at hrun
  obtain ⟨store, hmade, rfl⟩ := map_eq_ok.mp hrun
  have hleads : (construct slot item).wire.Leads g () { g with store } :=
    Rewiring.leads_request (fun s => do return ((), ← s.construct slot node)) (by simp [hmade])
  refine ⟨_, hleads, hg.withStore rfl ?_⟩
  exact fun other _ line item hread => ⟨item, Store.read_of_construct hmade hread⟩

theorem wires_deallocate {slot : Slot} (hg : g.Carries t) (hslot : slot ∉ t.shape.slots)
    (hact : (deallocate slot).act t = .ok u) : (deallocate slot).Wires g u := by
  obtain ⟨⟨content, s⟩, hrun, hu⟩ := bind_eq_ok.mp hact
  obtain rfl := Except.ok.inj hu
  rw [← hg.store, Store.deallocate_map] at hrun
  obtain ⟨⟨given, store⟩, hgiven, heq⟩ := map_eq_ok.mp hrun
  obtain ⟨rfl, rfl⟩ := Prod.mk.inj heq
  refine ⟨{ g with store }, (Rewiring.leads_request _ hgiven).bind (.pure _ _), hg.withStore rfl ?_⟩
  intro other hother line item hread
  have hne : other ≠ slot := fun heq => hslot (heq ▸ hother)
  exact ⟨item, Store.read_of_cells_eq (Store.cells_of_deallocate hgiven other hne) hread⟩

theorem wires_replace {slot : Slot} {item old : α} (hg : g.Carries t) (hold : t.itemAt slot = .ok old)
    (hact : (replace slot item).act t = .ok u) : (replace slot item).Wires g u := by
  obtain ⟨s, hrun, hu⟩ := bind_eq_ok.mp hact
  obtain rfl := Except.ok.inj hu
  rw [Tree.itemAt, ← hg.store, Store.read_map] at hold
  obtain ⟨⟨line, _⟩, hline, rfl⟩ := map_eq_ok.mp hold
  let node : Links × α := (line, item)
  rw [← hg.store, show item = node.2 from rfl, Store.write_map] at hrun
  obtain ⟨store, hwrite, rfl⟩ := map_eq_ok.mp hrun
  have hleads : (replace slot item).wire.Leads g () { g with store } :=
    Rewiring.leads_request (fun s => do return ((), ← s.write slot ((← s.read slot).1, item)))
      (by simp [hline, hwrite, node] )
  refine ⟨_, hleads, hg.withStore rfl ?_⟩
  intro other _ other_line kept hread
  obtain rfl | hne := eq_or_ne other slot
  · obtain ⟨rfl, _⟩ := Prod.mk.inj (Except.ok.inj (hread.symm.trans hline))
    exact ⟨item, (Store.cells_of_write hwrite).1⟩
  · exact ⟨kept, Store.read_of_cells_eq ((Store.cells_of_write hwrite).2 other hne) hread⟩

theorem wires_setBudget (hg : g.Carries t) (budget : Nat) :
    (setBudget budget).Wires g ({ t with store := t.store.setBudget budget } : Tree key) := by
  have hleads : (setBudget budget).wire.Leads g () { g with store := g.store.setBudget budget } := rfl
  refine ⟨_, hleads, hg.withStore ?_ ?_⟩
  · rw [← Store.setBudget_map, hg.store]
  · exact fun other _ line item hread => ⟨item, by rwa [Store.read, Store.base_setBudget]⟩

theorem wires_attach {slot : Slot} {place : Place} (hg : g.Carries t) (hnodup : t.shape.slots.Nodup)
    (hsize : t.size = t.shape.size) (hfits : (attach slot place : Move α).Fits t)
    (hact : (attach slot place).act t = .ok u) : (attach slot place).Wires g u := by
  obtain ⟨hslot, item, hitem⟩ := hfits
  obtain ⟨r, hrun, hu⟩ := bind_eq_ok.mp hact
  obtain rfl := Except.ok.inj hu
  obtain ⟨p, hp, rfl⟩ := Shape.exists_path_of_free (Shape.free_of_attach hrun)
  rw [← hp, Shape.attach_place slot (hp ▸ hnodup)] at hrun
  rw [Tree.itemAt, ← hg.store, Store.read_map] at hitem
  obtain ⟨node, hnode, _⟩ := map_eq_ok.mp hitem
  have hlimit : p.length < g.size + 1 := by
    have hheight := Path.length_add_height_le p .nil
    have hle := Shape.height_le_size t.shape
    rw [hg.size, hsize, ← hp]
    rw [← hp] at hle
    omega
  obtain ⟨hleads, hholds, _⟩ :=
    Rewiring.leads_attach (hp ▸ hg.links) (hp ▸ hnodup) (hp ▸ hslot) ⟨node, hnode⟩ hrun hlimit
  obtain ⟨hleft, hright⟩ := hg.entered slot p.place
  refine ⟨_, (Rewiring.leads_get g).bind hleads, hholds, hleft, hright, ?_, ?_⟩
  · change (g.entered slot p.place).size + 1 = t.size + 1
    rw [Wired.size_entered, hg.size]
  · change ((g.entered slot p.place).store.relink r.shape.overlay).map Prod.snd = t.store
    rw [Store.map_snd_relink, Wired.store_entered, hg.store]

theorem wires_unlink {slot : Slot} (hg : g.Carries t) (hnodup : t.shape.slots.Nodup) (hsize : t.size = t.shape.size)
    (hact : (unlink slot).act t = .ok u) : (unlink slot).Wires g u := by
  obtain ⟨t₁, hdetach, hact⟩ := bind_eq_ok.mp hact
  obtain ⟨n, hn, hu⟩ := bind_eq_ok.mp hact
  obtain ⟨r, hrun, ht₁⟩ := bind_eq_ok.mp hdetach
  obtain rfl := Except.ok.inj ht₁
  obtain rfl := Except.ok.inj hu
  have hlimit : t.shape.height < g.size + 1 := by
    have hle := Shape.height_le_size t.shape
    rw [hg.size, hsize]
    omega
  obtain ⟨root, f, hleads, hholds⟩ := Rewiring.leads_unlink hg.links hnodup hrun hlimit
  obtain ⟨hleft, hright, hkept, hstore⟩ := hg.without slot
  let g₁ := (g.without slot t.shape).overlaid root f
  have hcount : checkedSub g₁.size 1 = .ok n := by
    rw [← hn]
    exact congrArg (checkedSub · 1) (hkept.trans hg.size)
  have hset : (do let g ← get; set { g with size := ← checkedSub g.size 1 } : Rewiring α Unit).Leads g₁ ()
      { g₁ with size := n } := by
    refine (Rewiring.leads_get g₁).bind ?_
    rw [hcount]
    rfl
  refine ⟨_, (Rewiring.leads_get g).bind (hleads.bind hset), ⟨hholds.root, hholds.lines⟩, hleft, hright, rfl, ?_⟩
  change ((g.without slot t.shape).store.relink f).map Prod.snd = t.store
  rw [Store.map_snd_relink, hstore, hg.store]

theorem wires_clear (hg : g.Carries t) (hnodup : t.shape.slots.Nodup) (hsize : t.size = t.shape.size)
    (hact : clear.act t = .ok u) : clear.Wires g u := by
  obtain ⟨s, hrun, hu⟩ := bind_eq_ok.mp hact
  obtain rfl := Except.ok.inj hu
  obtain ⟨store, hreleases, _, hreleased⟩ := (Store.Heads.of_links hg.links.lines).exists_released hnodup
  rw [hg.store, hrun] at hreleased
  have hlimit : t.shape.height ≤ g.size + 1 := by
    have hle := Shape.height_le_size t.shape
    rw [hg.size, hsize]
    omega
  have hleads : clear.wire.Leads g () (.empty store) := by
    refine (Rewiring.leads_get g).bind ?_
    have hend : g.store.releaseBelow (g.size + 1) g.root = (pure store : OptionT (Except Fault) _) := by
      rw [hg.links.root]
      exact hreleases _ hlimit
    rw [hend]
    rfl
  exact ⟨_, hleads, Wired.carries_empty (Except.ok.inj hreleased).symm⟩

/-- A write that a tree allows can be done to links that carry the tree: no
    assertion fails on the way, and the links carry the tree that comes of
    it. -/
theorem wires (hg : g.Carries t) (hnodup : t.shape.slots.Nodup) (hsize : t.size = t.shape.size) (hfits : m.Fits t)
    (hact : m.act t = .ok u) : m.Wires g u := by
  cases m with
  | allocate => exact wires_allocate hg hact
  | construct slot item => exact wires_construct hg hact
  | deallocate slot => exact wires_deallocate hg hfits hact
  | replace slot item =>
    obtain ⟨old, hold⟩ := hfits
    exact wires_replace hg hold hact
  | attach slot place => exact wires_attach hg hnodup hsize hfits hact
  | unlink slot => exact wires_unlink hg hnodup hsize hact
  | clear => exact wires_clear hg hnodup hsize hact
  | setBudget budget =>
    obtain rfl := Except.ok.inj hact
    exact wires_setBudget hg budget

end Move

end RedBlack
