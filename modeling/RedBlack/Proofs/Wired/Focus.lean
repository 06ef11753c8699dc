import RedBlack.Proofs.Shape.Growth
import RedBlack.Proofs.Wired.Runs

namespace RedBlack

open Shape (Links)

namespace Shape

variable {side : Side} {color : Color} {slot other : Slot} {near far : Shape}

theorem mem_slots_branch :
    other ∈ (branch side color slot near far).slots ↔ other = slot ∨ other ∈ near.slots ∨ other ∈ far.slots := by
  rw [(slots_branch_perm side color slot near far).mem_iff, List.mem_cons, List.mem_append]

theorem nodup_slots_branch :
    (branch side color slot near far).slots.Nodup ↔ slot ∉ near.slots ∧ slot ∉ far.slots ∧ near.slots.Nodup ∧
      far.slots.Nodup ∧ near.slots.Disjoint far.slots := by
  rw [(slots_branch_perm side color slot near far).nodup_iff, List.nodup_cons, List.nodup_append', List.mem_append,
    not_or, and_assoc]

/-- A node seen from the path above it, apart from its subtrees and from all
    that surrounds it. -/
theorem apart_of_nodup_fill {p : Path} (h : (p.fill (branch side color slot near far)).slots.Nodup) :
    slot ∉ near.slots ∧ slot ∉ far.slots ∧ slot ∉ p.slots ∧ near.slots.Disjoint far.slots ∧
      near.slots.Disjoint p.slots ∧ far.slots.Disjoint p.slots ∧
      near.slots.Nodup ∧ far.slots.Nodup ∧ p.slots.Nodup := by
  obtain ⟨hbranch, hp, hapart⟩ := Path.nodup_slots_fill.mp h
  obtain ⟨hnear, hfar, hnodup, hnodup', hsides⟩ := nodup_slots_branch.mp hbranch
  refine ⟨hnear, hfar, hapart (mem_slots_branch.mpr (.inl rfl)), hsides, ?_, ?_, hnodup, hnodup', hp⟩
  · exact fun other hother => hapart (mem_slots_branch.mpr (.inr (.inl hother)))
  · exact fun other hother => hapart (mem_slots_branch.mpr (.inr (.inr hother)))

end Shape

namespace Rewiring

variable {α ρ υ : Type}

/-- Wherever the nodes of a shape lie, the program ends there with the value and
    leaves the links of another shape, with the same nodes in the same order.
    Nothing else of the tree changes. -/
structure Takes (a : Rewiring α ρ) (t : Shape) (value : ρ) (u : Shape) : Prop where
  slots : u.slots = t.slots
  leads : ∀ g : Wired α, g.Owns t.slots → a.Leads (g.put t) value (g.put u)

namespace Takes

variable {a b : Rewiring α ρ} {f : ρ → Rewiring α υ} {t u s : Shape} {v : ρ} {w : υ}

theorem pure (v : ρ) (t : Shape) : (Pure.pure v : Rewiring α ρ).Takes t v t :=
  ⟨rfl, fun _ _ => .pure _ _⟩

theorem bind (ha : a.Takes t v u) (hf : (f v).Takes u w s) : (a >>= f).Takes t w s where
  slots := hf.slots.trans ha.slots
  leads g hg := (ha.leads g hg).bind (hf.leads g (ha.slots ▸ hg))

theorem map (ha : a.Takes t v u) (h : ρ → υ) : (h <$> a).Takes t (h v) u where
  slots := ha.slots
  leads g hg := (ha.leads g hg).map h

theorem ite_pos {c : Prop} [Decidable c] (hc : c) (ha : a.Takes t v u) : (if c then a else b).Takes t v u := by
  rwa [if_pos hc]

theorem ite_neg {c : Prop} [Decidable c] (hc : ¬ c) (ha : a.Takes t v u) : (if c then b else a).Takes t v u := by
  rwa [if_neg hc]

/-- A tree that holds the shape holds the other one afterwards. -/
theorem holds {g : Wired α} (ha : a.Takes t v u) (hg : g.Holds t) (hnodup : t.slots.Nodup) :
    a.Leads g v (g.put u) ∧ (g.put u).Holds u := by
  have howns := hg.owns hnodup
  have hleads := ha.leads g howns
  rw [hg.put_eq hnodup] at hleads
  exact ⟨hleads, Wired.holds_put (ha.slots ▸ howns)⟩

/-- What leaves the shape as it is leaves a tree that holds it as it is. -/
theorem reads {g : Wired α} (ha : a.Takes t v t) (hg : g.Holds t) (hnodup : t.slots.Nodup) : a.Leads g v g := by
  have hleads := ha.leads g (hg.owns hnodup)
  rwa [hg.put_eq hnodup] at hleads

end Takes

section Focus

variable (p : Path) (side : Side) (c : Color) (s : Slot) (near far : Shape)

theorem takes_read : (read (.node s) : Rewiring α Links).Takes (p.fill (.branch side c s near far))
    (.facing side s c p.parent (.ofChild near.slot?) (.ofChild far.slot?)) (p.fill (.branch side c s near far)) := by
  refine ⟨rfl, fun g hg => ?_⟩
  obtain ⟨_, hshows⟩ := (Overlay.shows_fill p _).mp (Shape.overlay_shows hg.nodup)
  refine leads_read_overlaid (hg.built s ?_) (Overlay.shows_branch.mp hshows).1
  exact (Path.slots_fill_perm p _).mem_iff.mpr (List.mem_append_left _ (Shape.mem_slots_branch.mpr (.inl rfl)))

theorem takes_child : (child side (.node s) : Rewiring α Handle).Takes (p.fill (.branch side c s near far))
    (.ofChild near.slot?) (p.fill (.branch side c s near far)) := by
  simpa [child] using (takes_read (α := α) p side c s near far).map (Links.child side)

theorem takes_child_opposite : (child side.opposite (.node s) : Rewiring α Handle).Takes
    (p.fill (.branch side c s near far)) (.ofChild far.slot?) (p.fill (.branch side c s near far)) := by
  simpa [child] using (takes_read (α := α) p side c s near far).map (Links.child side.opposite)

theorem takes_parent : (parent (.node s) : Rewiring α Handle).Takes (p.fill (.branch side c s near far)) p.parent
    (p.fill (.branch side c s near far)) := by
  simpa [parent] using (takes_read (α := α) p side c s near far).map Links.parent

theorem takes_color : (color (.node s) : Rewiring α Color).Takes (p.fill (.branch side c s near far)) c
    (p.fill (.branch side c s near far)) := by
  simpa [color, Handle.isNode] using (takes_read (α := α) p side c s near far).map Links.color

theorem takes_setColor (d : Color) : (setColor d (.node s) : Rewiring α Unit).Takes
    (p.fill (.branch side c s near far)) () (p.fill (.branch side d s near far)) := by
  have hslots : (p.fill (.branch side d s near far)).slots = (p.fill (.branch side c s near far)).slots :=
    Path.slots_fill_congr p (Shape.slots_branch_congr rfl rfl)
  refine ⟨hslots, fun g hg => ?_⟩
  obtain ⟨hnear, hfar, hp, _⟩ := Shape.apart_of_nodup_fill hg.nodup
  obtain ⟨hsurrounds, hshows⟩ := (Overlay.shows_fill p _).mp (Shape.overlay_shows hg.nodup)
  rw [Shape.ofChild_slot?_branch] at hsurrounds
  obtain ⟨hline, hbelow, hbelow'⟩ := Overlay.shows_branch.mp hshows
  have hmem : s ∈ (p.fill (.branch side c s near far)).slots :=
    (Path.slots_fill_perm p _).mem_iff.mpr (List.mem_append_left _ (Shape.mem_slots_branch.mpr (.inl rfl)))
  have hroot : Handle.ofChild (p.fill (.branch side c s near far)).slot? =
      .ofChild (p.fill (.branch side d s near far)).slot? := by
    rw [Path.ofChild_slot?_fill, Path.ofChild_slot?_fill, Shape.ofChild_slot?_branch, Shape.ofChild_slot?_branch]
  have hwrite := leads_rewrite_overlaid (r := .ofChild (p.fill (.branch side c s near far)).slot?)
    (f := (p.fill (.branch side c s near far)).overlay) (c := fun l => { l with color := d }) (hg.built s hmem)
  rw [← Wired.put, hroot, Wired.overlaid_eq_put] at hwrite
  · exact hwrite
  · rw [Overlay.shows_fill, Shape.ofChild_slot?_branch, Overlay.shows_branch]
    exact ⟨hsurrounds.touch hp, fun l => Overlay.touch_self.trans (by rw [hline, Links.recolor_facing]),
      hbelow.touch hnear, hbelow'.touch hfar⟩
  · rw [hslots]
    exact Shape.overlay_within.touch hmem

theorem takes_root (t : Shape) : (root : Rewiring α Handle).Takes t (.ofChild t.slot?) t :=
  ⟨rfl, fun _ _ => rfl⟩

theorem takes_isRed_self : (isRed (.node s) : Rewiring α Bool).Takes (p.fill (.branch side c s near far)) (c = .red)
    (p.fill (.branch side c s near far)) :=
  (takes_color p side c s near far).bind (.pure _ _)

/-- On which side of its parent a subtree hangs is told by the left link of the
    parent, if the other child of the parent is not the same. -/
theorem takes_bySide {a b : Rewiring α ρ} {v : ρ} {u : Shape} (hother : Handle.ofChild far.slot? ≠ .ofChild near.slot?)
    (h : (match side with | .left => a | .right => b).Takes (p.fill (.branch side c s near far)) v u) :
    (bySide (.ofChild near.slot?) (.node s) a b).Takes (p.fill (.branch side c s near far)) v u := by
  cases side with
  | left => exact (takes_child p .left c s near far).bind (.ite_pos rfl h)
  | right => exact (takes_child_opposite p .right c s near far).bind (.ite_neg hother.symm h)

/-- The colour of a subtree is read at its top node; where that is missing it is
    black. -/
theorem takes_isRed (x : Shape) : (isRed (.ofChild x.slot?) : Rewiring α Bool).Takes (p.fill x) x.isRed (p.fill x) := by
  cases x with
  | nil => exact .pure _ _
  | node color left slot right => exact (takes_color p .left color slot left right).bind (.pure _ _)

/-- What is done to a subtree on the far side of a node is done to a subtree of
    the whole. -/
theorem Takes.onFar {p : Path} {side : Side} {c : Color} {s : Slot} {near far far' : Shape} {a : Rewiring α ρ} {v : ρ}
    (h : a.Takes (Path.fill (⟨side.opposite, c, s, near⟩ :: p) far) v
      (Path.fill (⟨side.opposite, c, s, near⟩ :: p) far')) :
    a.Takes (p.fill (.branch side c s near far)) v (p.fill (.branch side c s near far')) := by
  simpa only [Path.fill_cons, Frame.close, Shape.branch_opposite] using h

theorem takes_isRed_near : (isRed (.ofChild near.slot?) : Rewiring α Bool).Takes (p.fill (.branch side c s near far))
    near.isRed (p.fill (.branch side c s near far)) :=
  takes_isRed (⟨side, c, s, far⟩ :: p) near

theorem takes_isRed_far : (isRed (.ofChild far.slot?) : Rewiring α Bool).Takes (p.fill (.branch side c s near far))
    far.isRed (p.fill (.branch side c s near far)) :=
  (takes_isRed _ far).onFar

theorem takes_parentOf {x : Shape} (hx : x ≠ .nil) :
    (parent (.ofChild x.slot?) : Rewiring α Handle).Takes (p.fill x) p.parent (p.fill x) := by
  cases x with
  | nil => exact absurd rfl hx
  | node color left slot right => exact takes_parent p .left color slot left right

theorem takes_paint {x : Shape} (d : Color) (hx : x ≠ .nil) :
    (setColor d (.ofChild x.slot?) : Rewiring α Unit).Takes (p.fill x) () (p.fill (x.paint d)) := by
  cases x with
  | nil => exact absurd rfl hx
  | node color left slot right => exact takes_setColor p .left color slot left right d

theorem takes_paint_near {near : Shape} (d : Color) (hnear : near ≠ .nil) :
    (setColor d (.ofChild near.slot?) : Rewiring α Unit).Takes (p.fill (.branch side c s near far)) ()
      (p.fill (.branch side c s (near.paint d) far)) :=
  takes_paint (⟨side, c, s, far⟩ :: p) d hnear

theorem takes_paint_far {far : Shape} (d : Color) (hfar : far ≠ .nil) :
    (setColor d (.ofChild far.slot?) : Rewiring α Unit).Takes (p.fill (.branch side c s near far)) ()
      (p.fill (.branch side c s near (far.paint d))) :=
  (takes_paint _ d hfar).onFar

end Focus

end Rewiring

end RedBlack
