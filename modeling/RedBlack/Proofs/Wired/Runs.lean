import RedBlack.Proofs.Wired.Overlays

namespace RedBlack

open Shape (Links)

namespace Wired

variable {α : Type}

/-- The tree with another root and with its nodes relinked. -/
def overlaid (root : Handle) (f : Overlay) (g : Wired α) : Wired α :=
  { g with root, store := g.store.relink f }

/-- The tree with the links of a shape written into the slots of that. -/
def put (t : Shape) (g : Wired α) : Wired α :=
  g.overlaid (.ofChild t.slot?) t.overlay

def Built (g : Wired α) (slot : Slot) : Prop :=
  ∃ node, g.store.read slot = .ok node

/-- The slots are distinct and hold nodes, whatever these are linked to. -/
structure Owns (g : Wired α) (slots : List Slot) : Prop where
  nodup : slots.Nodup
  built : ∀ slot ∈ slots, g.Built slot

/-- The links of the tree are those of a shape: the header leads to its root,
    and each of its nodes lies in its slot with the links that it has in the
    shape. -/
structure Holds (g : Wired α) (t : Shape) : Prop where
  root : g.root = .ofChild t.slot?
  lines : ∀ line ∈ t.links .header, ∃ item, g.store.read line.slot = .ok (line, item)

variable {g : Wired α} {t u : Shape} {f : Overlay} {root : Handle} {slots : List Slot}

theorem Owns.mono {more : List Slot} (h : g.Owns slots) (hnodup : more.Nodup) (hsub : more ⊆ slots) : g.Owns more :=
  ⟨hnodup, fun slot hslot => h.built slot (hsub hslot)⟩

theorem Owns.of_store {g' : Wired α} (h : g.Owns slots) (hstore : g'.store = g.store) : g'.Owns slots := by
  refine ⟨h.nodup, fun slot hslot => ?_⟩
  rw [Built, hstore]
  exact h.built slot hslot

theorem Holds.owns (h : g.Holds t) (hnodup : t.slots.Nodup) : g.Owns t.slots where
  nodup := hnodup
  built slot hslot := by
    rw [← Shape.map_slot_links .header, List.mem_map] at hslot
    obtain ⟨line, hline, rfl⟩ := hslot
    obtain ⟨item, hitem⟩ := h.lines line hline
    exact ⟨_, hitem⟩

theorem overlaid_eq_put (hshows : f.Shows .header u) (hwithin : f.Within u.slots) :
    g.overlaid (.ofChild u.slot?) f = g.put u := by
  have hstore : g.store.relink f = g.store.relink u.overlay :=
    Store.relink_congr fun slot node _ => Shape.eq_overlay hshows hwithin slot node.1
  rw [put, overlaid, overlaid, hstore]

/-- A shape whose links are there already changes nothing when they are written
    once more. -/
theorem Holds.put_eq (h : g.Holds t) (hnodup : t.slots.Nodup) : g.put t = g := by
  have hstore : g.store.relink t.overlay = g.store.relink .none := by
    refine Store.relink_congr fun slot node hread => ?_
    by_cases hslot : slot ∈ t.slots
    · rw [← Shape.map_slot_links .header, List.mem_map] at hslot
      obtain ⟨line, hline, rfl⟩ := hslot
      obtain ⟨item, hitem⟩ := h.lines line hline
      obtain rfl := Except.ok.inj (hread.symm.trans hitem)
      exact Shape.overlay_shows hnodup line hline line
    · exact Shape.overlay_within slot hslot node.1
  rw [put, overlaid, hstore, Store.relink_none, ← h.root]

theorem Holds.overlaid_fill {p : Path} {x : Shape} (h : g.Holds (p.fill x)) (hnodup : (p.fill x).slots.Nodup) :
    g.overlaid (p.root (.ofChild x.slot?)) (p.fill x).overlay = g := by
  rw [← Path.ofChild_slot?_fill]
  exact h.put_eq hnodup

theorem holds_overlaid (howns : g.Owns u.slots) (hshows : f.Shows .header u) :
    (g.overlaid (.ofChild u.slot?) f).Holds u where
  root := rfl
  lines line hline := by
    obtain ⟨node, hread⟩ := howns.built line.slot (Shape.mem_slots_of_mem_links hline)
    exact ⟨node.2, by rw [overlaid, Store.read_relink, hread, except_map, hshows line hline]⟩

theorem holds_put (howns : g.Owns t.slots) : (g.put t).Holds t :=
  holds_overlaid howns (Shape.overlay_shows howns.nodup)

end Wired

namespace Rewiring

variable {α ρ υ : Type}

/-- The program ends without a fault and within its limit, with the value, and
    leaves the tree like this. -/
def Leads (a : Rewiring α ρ) (g : Wired α) (value : ρ) (after : Wired α) : Prop :=
  a.run g = pure (value, after)

namespace Leads

variable {a : Rewiring α ρ} {f : ρ → Rewiring α υ} {g g₁ g₂ : Wired α} {v : ρ} {w : υ}

theorem pure (v : ρ) (g : Wired α) : (Pure.pure v : Rewiring α ρ).Leads g v g :=
  rfl

theorem bind (ha : a.Leads g v g₁) (hf : (f v).Leads g₁ w g₂) : (a >>= f).Leads g w g₂ := by
  have hrun : (a >>= f).run g = a.run g >>= fun done => (f done.1).run done.2 := rfl
  rw [Leads, hrun, ha]
  exact hf

theorem map (ha : a.Leads g v g₁) (h : ρ → υ) : (h <$> a).Leads g (h v) g₁ := by
  rw [map_eq_pure_bind]
  exact ha.bind (.pure _ _)

theorem ite_pos {c : Prop} [Decidable c] {b : Rewiring α ρ} (hc : c) (ha : a.Leads g v g₁) :
    (if c then a else b).Leads g v g₁ := by
  rwa [if_pos hc]

theorem ite_neg {c : Prop} [Decidable c] {b : Rewiring α ρ} (hc : ¬ c) (ha : a.Leads g v g₁) :
    (if c then b else a).Leads g v g₁ := by
  rwa [if_neg hc]

end Leads

variable {g : Wired α} {slot : Slot} {node : Links × α} {f : Overlay} {root new : Handle} {change : Links → Links}
  {line : Links}

theorem leads_get (g : Wired α) : (get : Rewiring α (Wired α)).Leads g g g :=
  rfl

theorem leads_read (h : g.store.read slot = .ok node) : (read (.node slot)).Leads g node.1 g := by
  refine (leads_get g).bind ?_
  rw [h]
  rfl

theorem leads_rewrite {c : Links → Links} (h : g.store.read slot = .ok node) :
    (rewrite c (.node slot)).Leads g () { g with store := g.store.relink (Overlay.none.touch slot c) } := by
  refine (leads_get g).bind ?_
  rw [h]
  refine Leads.bind (v := node) rfl ?_
  rw [Store.write_line h]
  rfl

/-- What is read in a tree that was relinked is the line made there. -/
theorem leads_read_overlaid {r : Handle} (hslot : g.Built slot) (hline : ∀ l, f slot l = line) :
    (read (.node slot)).Leads (g.overlaid r f) line (g.overlaid r f) := by
  obtain ⟨node, hread⟩ := hslot
  have hnode : (g.overlaid r f).store.read slot = .ok (line, node.2) := by
    rw [Wired.overlaid, Store.read_relink, hread, except_map, hline]
  exact leads_read hnode

/-- What is written to a tree that was relinked relinks it once more. -/
theorem leads_rewrite_overlaid {r : Handle} {c : Links → Links} (hslot : g.Built slot) :
    (rewrite c (.node slot)).Leads (g.overlaid r f) () (g.overlaid r (f.touch slot c)) := by
  obtain ⟨node, hread⟩ := hslot
  have hnode : (g.overlaid r f).store.read slot = .ok (f slot node.1, node.2) := by
    rw [Wired.overlaid, Store.read_relink, hread, except_map]
  have hwrite := leads_rewrite (c := c) hnode
  rwa [Wired.overlaid, Store.relink_relink] at hwrite

theorem leads_setRoot_overlaid : (setRoot new).Leads (g.overlaid root f) () (g.overlaid new f) :=
  rfl

theorem leads_setParent?_overlaid {t : Shape} (hbuilt : ∀ slot ∈ t.slots, g.Built slot) (parent : Handle) :
    (setParent? (.ofChild t.slot?) parent).Leads (g.overlaid root f) () (g.overlaid root (f.reparent t parent)) := by
  cases t with
  | nil => exact .pure () _
  | node color left slot right => exact leads_rewrite_overlaid (hbuilt slot (by simp [Shape.slots]))

/-- The link of a parent that leads to the end of a path is found on its side,
    if the other child of the parent is another one. -/
theorem leads_replaceChild_overlaid {p : Path} {old : Handle} (hbuilt : ∀ slot ∈ p.slots, g.Built slot)
    (h : f.Surrounds p old) (hother : ∀ frame ∈ p.head?, .ofChild frame.sibling.slot? ≠ old) :
    (replaceChild p.parent old new).Leads (g.overlaid (p.root old) f) ()
      (g.overlaid (p.root new) (f.rehang p new)) := by
  cases p with
  | nil => exact leads_setRoot_overlaid
  | cons frame up =>
    obtain ⟨hline, _, _⟩ := h
    have hslot := hbuilt frame.slot (Path.mem_slots_cons.mpr (.inl rfl))
    have hread := leads_read_overlaid (r := Path.root (frame :: up) old) hslot hline
    have hwrite := leads_rewrite_overlaid (r := Path.root (frame :: up) old) (f := f)
      (c := Links.withChild frame.side new) hslot
    have hne := hother frame rfl
    refine .ite_neg Handle.node_ne_header ((hread.map _).bind ?_)
    obtain ⟨side, color, slot, sibling⟩ := frame
    cases side with
    | left => exact .ite_pos rfl hwrite
    | right => exact .ite_neg hne ((hread.map _).bind (.ite_pos rfl hwrite))

end Rewiring

end RedBlack
