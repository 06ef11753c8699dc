import RedBlack.Proofs.Shape.Mirror
import RedBlack.Proofs.Wired.LackRepair
import RedBlack.Proofs.Wired.RedRepair

namespace RedBlack

open Shape (Links)

/-- The tree with left and right exchanged in the links of every node and at the
    ends. The nodes stay in their slots, and the header leads to the same
    root. -/
def Wired.mirror {α : Type} (g : Wired α) : Wired α :=
  { g with
    leftmost := g.rightmost
    rightmost := g.leftmost
    store := g.store.relink fun _ => Links.mirror }

/-- A line of a shape is turned around in the mirror image, and another line may
    be turned around just as well. -/
theorem Shape.mirror_overlay {t : Shape} (hnodup : t.slots.Nodup) (slot : Slot) (l : Links) :
    t.mirror.overlay slot l.mirror = (t.overlay slot l).mirror := by
  have hnodup' : t.mirror.slots.Nodup := by rwa [slots_mirror, List.nodup_reverse]
  by_cases hslot : slot ∈ t.slots
  · rw [← map_slot_links .header, List.mem_map] at hslot
    obtain ⟨line, hline, rfl⟩ := hslot
    have hline' : line.mirror ∈ t.mirror.links .header := by
      rw [links_mirror, List.mem_reverse]
      exact List.mem_map_of_mem hline
    rw [overlay_shows hnodup line hline]
    exact overlay_shows hnodup' line.mirror hline' l.mirror
  · have hslot' : slot ∉ t.mirror.slots := by rwa [slots_mirror, List.mem_reverse]
    rw [overlay_within slot hslot, overlay_within slot hslot']

namespace Wired

variable {α : Type} {g : Wired α} {t : Shape}

theorem mirror_put (g : Wired α) (hnodup : t.slots.Nodup) : (g.put t).mirror = g.mirror.put t.mirror := by
  have hstore : (g.store.relink t.overlay).relink (fun _ => Links.mirror) =
      (g.store.relink fun _ => Links.mirror).relink t.mirror.overlay := by
    rw [Store.relink_relink, Store.relink_relink]
    exact Store.relink_congr fun slot node _ => (Shape.mirror_overlay hnodup slot node.1).symm
  rw [put, put, overlaid, overlaid, mirror, mirror, hstore, Shape.slot?_mirror]

theorem Owns.mirror {slots : List Slot} (h : g.Owns slots) : g.mirror.Owns slots where
  nodup := h.nodup
  built slot hslot := by
    obtain ⟨node, hread⟩ := h.built slot hslot
    exact ⟨(node.1.mirror, node.2), by rw [Wired.mirror, Store.read_relink, hread, except_map]⟩

/-- What holds a shape holds in the mirror the mirror image of it. -/
theorem Holds.mirror (h : g.Holds t) (hnodup : t.slots.Nodup) : g.mirror.Holds t.mirror := by
  have howns : g.mirror.Owns t.mirror.slots :=
    (h.owns hnodup).mirror.mono (by rwa [Shape.slots_mirror, List.nodup_reverse]) (by rw [Shape.slots_mirror]; simp)
  have hholds := holds_put howns
  rwa [← mirror_put g hnodup, h.put_eq hnodup] at hholds

end Wired

namespace Rewiring

variable {α ρ : Type}

/-- Where one program takes a shape to another one, and a second program takes
    the mirror image of the first shape to that of the other one, the programs
    commute with the mirror on every tree that holds the shape. -/
theorem Takes.mirrored {a b : Rewiring α ρ} {t u : Shape} {v : ρ} {g : Wired α} (ha : a.Takes t v u)
    (hb : b.Takes t.mirror v u.mirror) (hg : g.Holds t) (hnodup : t.slots.Nodup) :
    ∃ g', a.Leads g v g' ∧ b.Leads g.mirror v g'.mirror ∧ g'.Holds u := by
  have howns := hg.owns hnodup
  have hu : u.slots.Nodup := ha.slots ▸ hnodup
  have howns' : g.mirror.Owns t.mirror.slots :=
    howns.mirror.mono (by rwa [Shape.slots_mirror, List.nodup_reverse]) (by rw [Shape.slots_mirror]; simp)
  obtain ⟨hleads, hholds⟩ := ha.holds hg hnodup
  have hleads' := hb.leads g.mirror howns'
  rw [← Wired.mirror_put g hnodup, hg.put_eq hnodup, ← Wired.mirror_put g hu] at hleads'
  exact ⟨g.put u, hleads, hleads', hholds⟩

section Repairs

variable {g : Wired α} {p : Path} {x : Shape} {n limit : Nat}

/-- The loop over a red node comes in the mirror to the mirror image of what it
    comes to, where that node is all that breaks the rules. Its halves for the
    two sides are programs of their own. -/
theorem insertFixup_mirrored (hg : g.Holds (p.fill x)) (hnodup : (p.fill x).slots.Nodup) (hp : p.Fits .black n)
    (hx : x.Balanced n) (hred : x.color = .red) (hlimit : p.length < limit) :
    ∃ g' u, (insertFixup limit (.ofChild x.slot?)).Leads g () g' ∧
      (insertFixup limit (.ofChild x.slot?)).Leads g.mirror () g'.mirror ∧ g'.Holds u ∧ u.IsRedBlack := by
  obtain ⟨r, hr, hbalanced, _⟩ := Path.repairRed_spec p x n hp hx hred
  have hr' : p.mirror.repairRed x.mirror = .ok r.mirror := by
    rw [Path.repairRed_mirror, hr]
    rfl
  have hnil : x ≠ .nil := Shape.ne_nil_of_red (Shape.isRed_iff.mpr hred)
  have hnil' : x.mirror ≠ .nil := Shape.ne_nil_of_red (Shape.isRed_iff.mpr ((Shape.color_mirror x).trans hred))
  have hnodup' : (p.mirror.fill x.mirror).slots.Nodup := by
    rwa [Path.fill_mirror, Shape.slots_mirror, List.nodup_reverse]
  have hlimit' : p.mirror.length < limit := by rwa [Path.mirror, List.length_map]
  have htakes' := takes_insertFixup (α := α) hr' hnil' hnodup' hlimit'
  rw [Path.fill_mirror, Shape.slot?_mirror] at htakes'
  obtain ⟨g', h, h', hholds⟩ := (takes_insertFixup hr hnil hnodup hlimit).mirrored htakes' hg hnodup
  exact ⟨g', r.shape, h, h', hholds, hbalanced⟩

/-- The loop over a node that lacks a black one does so too, also where that
    node is missing itself. -/
theorem eraseFixup_mirrored (hg : g.Holds (p.fill x)) (hnodup : (p.fill x).slots.Nodup)
    (hp : p.Fits .black (n + 1)) (hx : x.Balanced n) (hlimit : p.length < limit) :
    ∃ g' u, (eraseFixup limit (.ofChild x.slot?) p.parent).Leads g () g' ∧
      (eraseFixup limit (.ofChild x.slot?) p.parent).Leads g.mirror () g'.mirror ∧ g'.Holds u ∧ u.IsRedBlack := by
  obtain ⟨r, hr, hbalanced, _⟩ := Path.repairShort_spec p x n hp hx
  have hr' : p.mirror.repairShort x.mirror = .ok r.mirror := by
    rw [Path.repairShort_mirror, hr]
    rfl
  have hnodup' : (p.mirror.fill x.mirror).slots.Nodup := by
    rwa [Path.fill_mirror, Shape.slots_mirror, List.nodup_reverse]
  have hlimit' : p.mirror.length < limit := by rwa [Path.mirror, List.length_map]
  have hparent : p.mirror.parent = p.parent := by cases p <;> rfl
  have htakes' := takes_eraseFixup (α := α) hr' hnodup' hlimit'
  rw [Path.fill_mirror, Shape.slot?_mirror, hparent] at htakes'
  obtain ⟨g', h, h', hholds⟩ := (takes_eraseFixup hr hnodup hlimit).mirrored htakes' hg hnodup
  exact ⟨g', r.shape, h, h', hholds, hbalanced⟩

end Repairs

end Rewiring

end RedBlack
