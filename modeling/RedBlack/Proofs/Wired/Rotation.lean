import RedBlack.Proofs.Wired.Focus

namespace RedBlack

open Shape (Links)

/-- What the writes of a rotation do to the lines, one after the other. The node
    `x` at the end of the path takes over the inner child of the raised node
    `y`, which takes its place below its parent and becomes its parent. -/
def Overlay.turn (side : Side) (p : Path) (x y : Slot) (inner : Shape) (f : Overlay) : Overlay :=
  ((((((f.touch x (Links.withChild side.opposite (.ofChild inner.slot?))).reparent inner (.node x)).touch y
    (Links.withParent p.parent)).rehang p (.node y)).touch y (Links.withChild side (.node x))).touch x
    (Links.withParent (.node y)))

/-- How the parts of a node with a child on the other side lie apart in the
    whole, as a rotation finds them. -/
structure Shape.Turnable (p : Path) (x y : Slot) (near inner outer : Shape) : Prop where
  slots : x ≠ y
  top : x ∉ near.slots ∧ x ∉ inner.slots ∧ x ∉ outer.slots ∧ x ∉ p.slots
  raised : y ∉ near.slots ∧ y ∉ inner.slots ∧ y ∉ outer.slots ∧ y ∉ p.slots
  between : inner.slots.Nodup ∧ inner.slots.Disjoint near.slots ∧ inner.slots.Disjoint outer.slots ∧
    inner.slots.Disjoint p.slots
  around : p.slots.Nodup ∧ p.slots.Disjoint near.slots ∧ p.slots.Disjoint outer.slots

section Rotation

variable {p : Path} {side : Side} {c d : Color} {x y : Slot} {near inner outer : Shape} {f : Overlay}

theorem Shape.turnable (h : (p.fill (branch side c x near (branch side d y inner outer))).slots.Nodup) :
    Turnable p x y near inner outer := by
  obtain ⟨hxnear, hxfar, hxp, hapart, hnearp, hfarp, _, hfar, hp⟩ := apart_of_nodup_fill h
  obtain ⟨hyinner, hyouter, hinner, _, hsides⟩ := nodup_slots_branch.mp hfar
  have hbelow (slot : Slot) (h : slot = y ∨ slot ∈ inner.slots ∨ slot ∈ outer.slots) :
      slot ∈ (branch side d y inner outer).slots :=
    mem_slots_branch.mpr h
  obtain ⟨hxy, hxinner, hxouter⟩ : x ≠ y ∧ x ∉ inner.slots ∧ x ∉ outer.slots := by
    rwa [mem_slots_branch, not_or, not_or] at hxfar
  refine ⟨hxy, ⟨hxnear, hxinner, hxouter, hxp⟩, ⟨?_, hyinner, hyouter, ?_⟩, ⟨hinner, ?_, hsides, ?_⟩,
    ⟨hp, fun slot hslot hmem => hnearp hmem hslot, ?_⟩⟩
  · exact fun hmem => hapart hmem (hbelow y (.inl rfl))
  · exact hfarp (hbelow y (.inl rfl))
  · exact fun slot hslot hmem => hapart hmem (hbelow slot (.inr (.inl hslot)))
  · exact fun slot hslot => hfarp (hbelow slot (.inr (.inl hslot)))
  · exact fun slot hmem hslot => hfarp (hbelow slot (.inr (.inr hslot))) hmem

namespace Overlay

/-- The writes of a rotation touch no other line than those of the two nodes, of
    the node between them and of the parent. -/
theorem turn_of_notMem {slot : Slot} {l : Links} (hx : slot ≠ x) (hy : slot ≠ y) (hinner : slot ∉ inner.slots)
    (hp : slot ∉ p.slots) : f.turn side p x y inner slot l = f slot l := by
  rw [turn, touch_of_ne hx, touch_of_ne hy, rehang_of_notMem hp, touch_of_ne hy, reparent_of_notMem hinner,
    touch_of_ne hx]

theorem Within.turn (h : f.Within (p.fill (.branch side c x near (.branch side d y inner outer))).slots) :
    (f.turn side p x y inner).Within (p.fill (.branch side c x near (.branch side d y inner outer))).slots := by
  intro slot hslot l
  rw [(Path.slots_fill_perm p _).mem_iff, List.mem_append, Shape.mem_slots_branch, Shape.mem_slots_branch] at hslot
  rw [turn_of_notMem (by tauto) (by tauto) (by tauto) (by tauto)]
  refine h slot ?_ l
  rwa [(Path.slots_fill_perm p _).mem_iff, List.mem_append, Shape.mem_slots_branch, Shape.mem_slots_branch]

theorem Shows.turn (h : f.Shows .header (p.fill (.branch side c x near (.branch side d y inner outer))))
    (hnodup : (p.fill (.branch side c x near (.branch side d y inner outer))).slots.Nodup) :
    (f.turn side p x y inner).Shows .header (p.fill (.branch side d y (.branch side c x near inner) outer)) := by
  obtain ⟨hxy, ⟨hxnear, hxinner, hxouter, hxp⟩, ⟨hynear, hyinner, hyouter, hyp⟩, ⟨hinner, hinnear, hinouter, hinp⟩,
    ⟨hp, hpnear, hpouter⟩⟩ := Shape.turnable hnodup
  obtain ⟨hsurrounds, hshows⟩ := (shows_fill p _).mp h
  obtain ⟨hlinex, hshowsnear, hshows⟩ := shows_branch.mp hshows
  obtain ⟨hliney, hshowsinner, hshowsouter⟩ := shows_branch.mp hshows
  rw [shows_fill, shows_branch, shows_branch]
  refine ⟨?_, fun l => ?_, ⟨fun l => ?_, ?_, ?_⟩, ?_⟩
  · rw [Shape.ofChild_slot?_branch] at hsurrounds ⊢
    have hapart : ∀ slot ∈ p.slots, slot ∉ inner.slots := fun slot hslot hmem => hinp hmem hslot
    exact ((((((hsurrounds.touch hxp).reparent hapart).touch hyp).rehang hp).touch hyp).touch hxp)
  · rw [Overlay.turn, touch_of_ne hxy.symm, touch_self, rehang_of_notMem hyp, touch_self, reparent_of_notMem hyinner,
      touch_of_ne hxy.symm, hliney, Links.withParent_facing, Links.withChild_facing, Shape.ofChild_slot?_branch]
  · rw [Overlay.turn, touch_self, touch_of_ne hxy, rehang_of_notMem hxp, touch_of_ne hxy, reparent_of_notMem hxinner,
      touch_self, hlinex, Links.withChild_opposite_facing, Links.withParent_facing]
  · refine hshowsnear.congr fun slot hslot l => turn_of_notMem ?_ ?_ ?_ ?_
    · exact ne_of_mem_of_not_mem hslot hxnear
    · exact ne_of_mem_of_not_mem hslot hynear
    · exact fun hmem => hinnear hmem hslot
    · exact fun hmem => hpnear hmem hslot
  · have hapart : ∀ slot ∈ inner.slots, slot ∉ p.slots := fun slot hslot => hinp hslot
    exact ((((((hshowsinner.touch hxinner).reparent hinner).touch hyinner).rehang hapart).touch hyinner).touch hxinner)
  · refine hshowsouter.congr fun slot hslot l => turn_of_notMem ?_ ?_ ?_ ?_
    · exact ne_of_mem_of_not_mem hslot hxouter
    · exact ne_of_mem_of_not_mem hslot hyouter
    · exact fun hmem => hinouter hmem hslot
    · exact fun hmem => hpouter hmem hslot

end Overlay

namespace Rewiring

variable {α : Type} {g : Wired α}

/-- The program of a rotation makes just these writes. Each read finds the line
    as the writes before it left it. -/
theorem leads_rotate_overlaid (hg : g.Owns (p.fill (.branch side c x near (.branch side d y inner outer))).slots)
    (h : f.Shows .header (p.fill (.branch side c x near (.branch side d y inner outer)))) :
    (rotate side (.node x)).Leads (g.overlaid (p.root (.node x)) f) ()
      (g.overlaid (p.root (.node y)) (f.turn side p x y inner)) := by
  obtain ⟨_, ⟨_, hxinner, _, hxp⟩, ⟨_, _, _, hyp⟩, ⟨_, _, _, hinp⟩, _⟩ := Shape.turnable hg.nodup
  obtain ⟨hsurrounds, hshows⟩ := (Overlay.shows_fill p _).mp h
  obtain ⟨hlinex, _, hshows⟩ := Overlay.shows_branch.mp hshows
  obtain ⟨hliney, _, _⟩ := Overlay.shows_branch.mp hshows
  rw [Shape.ofChild_slot?_branch] at hsurrounds hlinex
  have hbuilt (slot : Slot) (hslot : slot = x ∨ slot = y ∨ slot ∈ inner.slots ∨ slot ∈ p.slots) : g.Built slot := by
    refine hg.built slot ?_
    rw [(Path.slots_fill_perm p _).mem_iff, List.mem_append, Shape.mem_slots_branch, Shape.mem_slots_branch]
    tauto
  have hx := hbuilt x (.inl rfl)
  have hy := hbuilt y (.inr (.inl rfl))
  let f₁ := f.touch x (Links.withChild side.opposite (.ofChild inner.slot?))
  let f₂ := f₁.reparent inner (.node x)
  let f₃ := f₂.touch y (Links.withParent p.parent)
  have hparent (l : Links) :
      f₂ x l = .facing side x c p.parent (.ofChild near.slot?) (.ofChild inner.slot?) := by
    refine (Overlay.reparent_of_notMem hxinner).trans (Overlay.touch_self.trans ?_)
    rw [hlinex, Links.withChild_opposite_facing]
  have hhole : f₃.Surrounds p (.node x) :=
    ((hsurrounds.touch hxp).reparent fun slot hslot hmem => hinp hmem hslot).touch hyp
  have hother : ∀ frame ∈ p.head?, Handle.ofChild frame.sibling.slot? ≠ .node x := by
    intro frame hframe heq
    obtain ⟨up, rfl⟩ := List.head?_eq_some_iff.mp hframe
    exact hxp (Path.mem_slots_cons.mpr (.inr (.inl (Shape.mem_slots_of_ofChild heq))))
  rw [rotate_eq]
  refine ((leads_read_overlaid hx hlinex).map _).bind ?_
  rw [Links.child_opposite_facing]
  refine .ite_neg Handle.node_ne_nil (((leads_read_overlaid hy hliney).map _).bind ?_)
  rw [Links.child_facing]
  refine (leads_rewrite_overlaid hx).bind ?_
  refine (leads_setParent?_overlaid (fun slot hslot => hbuilt slot (by tauto)) _).bind ?_
  refine ((leads_read_overlaid hx hparent).map _).bind ?_
  rw [Links.parent_facing]
  refine (leads_rewrite_overlaid hy).bind ?_
  refine (leads_replaceChild_overlaid (fun slot hslot => hbuilt slot (by tauto)) hhole hother).bind ?_
  exact (leads_rewrite_overlaid hy).bind (leads_rewrite_overlaid hx)

/-- Raising a child into the place of its parent, link by link, comes to the
    turned shape. -/
theorem takes_rotate (p : Path) (side : Side) (c d : Color) (x y : Slot) (near inner outer : Shape) :
    (rotate side (.node x) : Rewiring α Unit).Takes
      (p.fill (.branch side c x near (.branch side d y inner outer))) ()
      (p.fill (.branch side d y (.branch side c x near inner) outer)) := by
  have hslots : (p.fill (.branch side d y (.branch side c x near inner) outer)).slots =
      (p.fill (.branch side c x near (.branch side d y inner outer))).slots := by
    apply Path.slots_fill_congr
    cases side <;> simp
  refine ⟨hslots, fun g hg => ?_⟩
  have hshows := Shape.overlay_shows hg.nodup
  have hleads := leads_rotate_overlaid hg hshows
  have hx : p.root (.node x) = .ofChild (p.fill (.branch side c x near (.branch side d y inner outer))).slot? := by
    rw [Path.ofChild_slot?_fill, Shape.ofChild_slot?_branch]
  have hy : p.root (.node y) = .ofChild (p.fill (.branch side d y (.branch side c x near inner) outer)).slot? := by
    rw [Path.ofChild_slot?_fill, Shape.ofChild_slot?_branch]
  rwa [hx, hy, Wired.overlaid_eq_put (hshows.turn hg.nodup) (hslots ▸ Shape.overlay_within.turn)] at hleads

/-- Where the shape can be turned, turning the top of it comes to the turned
    shape. -/
theorem takes_turn (p : Path) {t u : Shape} (h : t.rotate side = .ok u) :
    (rotate side (.ofChild t.slot?) : Rewiring α Unit).Takes (p.fill t) () (p.fill u) := by
  obtain rfl | ⟨c, x, near, far, rfl⟩ := Shape.eq_nil_or_branch side t
  · cases h
  obtain rfl | ⟨d, y, inner, outer, rfl⟩ := Shape.eq_nil_or_branch side far
  · cases side <;> cases h
  rw [Shape.rotate_branch] at h
  obtain rfl := Except.ok.inj h
  rw [Shape.ofChild_slot?_branch]
  exact takes_rotate p side c d x y near inner outer

theorem takes_rotate_opposite (p : Path) (side : Side) (c d : Color) (x y : Slot) (outer inner far : Shape) :
    (rotate side.opposite (.node x) : Rewiring α Unit).Takes
      (p.fill (.branch side c x (.branch side d y outer inner) far)) ()
      (p.fill (.branch side d y outer (.branch side c x inner far))) := by
  simpa only [Shape.branch_opposite] using takes_rotate (α := α) p side.opposite c d x y far inner outer

end Rewiring

end Rotation

end RedBlack
