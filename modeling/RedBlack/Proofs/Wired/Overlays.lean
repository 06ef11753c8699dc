import RedBlack.Proofs.Shape.Rotation
import RedBlack.Proofs.Wired.Basic

namespace RedBlack

open Shape (Links)

theorem Handle.node_ne_nil {slot : Slot} : Handle.node slot ≠ .nil := by
  rintro ⟨⟩

theorem Handle.node_ne_header {slot : Slot} : Handle.node slot ≠ .header := by
  rintro ⟨⟩

/-- The line of a node that is seen from a side, with the link to the child on
    that side first. -/
def Shape.Links.facing (side : Side) (slot : Slot) (color : Color) (parent near far : Handle) : Links :=
  match side with
  | .left => { slot, color, parent, left := near, right := far }
  | .right => { slot, color, parent, left := far, right := near }

namespace Shape.Links

variable {side : Side} {slot : Slot} {color other : Color} {parent near far new : Handle}

@[simp] theorem color_facing : (facing side slot color parent near far).color = color := by
  cases side <;> rfl

@[simp] theorem parent_facing : (facing side slot color parent near far).parent = parent := by
  cases side <;> rfl

@[simp] theorem child_facing : (facing side slot color parent near far).child side = near := by
  cases side <;> rfl

@[simp] theorem child_opposite_facing : (facing side slot color parent near far).child side.opposite = far := by
  cases side <;> rfl

@[simp] theorem withChild_facing :
    (facing side slot color parent near far).withChild side new = facing side slot color parent new far := by
  cases side <;> rfl

@[simp] theorem withChild_opposite_facing :
    (facing side slot color parent near far).withChild side.opposite new = facing side slot color parent near new := by
  cases side <;> rfl

@[simp] theorem withParent_facing :
    (facing side slot color parent near far).withParent new = facing side slot color new near far := by
  cases side <;> rfl

@[simp] theorem recolor_facing :
    { facing side slot color parent near far with color := other } = facing side slot other parent near far := by
  cases side <;> rfl

end Shape.Links

namespace Path

/-- The slots around the end of a path. -/
def slots (p : Path) : List Slot :=
  p.slotsBefore ++ p.slotsAfter

@[simp] theorem slots_nil : slots [] = [] :=
  rfl

theorem slots_fill_perm (p : Path) (t : Shape) : (fill p t).slots.Perm (t.slots ++ slots p) := by
  rw [slots_fill, slots, List.append_assoc]
  exact List.perm_append_comm_assoc ..

theorem slots_cons_perm (f : Frame) (up : Path) : (slots (f :: up)).Perm (f.slot :: (f.sibling.slots ++ slots up)) := by
  have hperm := (slots_fill_perm (f :: up) .nil).symm.trans (slots_fill_cons_perm f up .nil)
  simpa [Shape.slots, slots] using hperm

/-- No slot is repeated in the whole if none is in the subtree and in what
    surrounds it, and the two share none. -/
theorem nodup_slots_fill {p : Path} {t : Shape} :
    (fill p t).slots.Nodup ↔ t.slots.Nodup ∧ (slots p).Nodup ∧ t.slots.Disjoint (slots p) := by
  rw [(slots_fill_perm p t).nodup_iff, List.nodup_append']

theorem nodup_slots_cons {f : Frame} {up : Path} :
    (slots (f :: up)).Nodup ↔ f.slot ∉ f.sibling.slots ∧ f.slot ∉ slots up ∧ f.sibling.slots.Nodup ∧
      (slots up).Nodup ∧ f.sibling.slots.Disjoint (slots up) := by
  rw [(slots_cons_perm f up).nodup_iff, List.nodup_cons, List.nodup_append', List.mem_append, not_or, and_assoc]

theorem mem_slots_cons {f : Frame} {up : Path} {slot : Slot} :
    slot ∈ slots (f :: up) ↔ slot = f.slot ∨ slot ∈ f.sibling.slots ∨ slot ∈ slots up := by
  rw [(slots_cons_perm f up).mem_iff, List.mem_cons, List.mem_append]

/-- The link of the header, where the link at the end of the path is the given
    one. -/
def root : Path → Handle → Handle
  | [], top => top
  | f :: up, _ => root up (.node f.slot)

theorem ofChild_slot?_fill (p : Path) (t : Shape) : .ofChild (p.fill t).slot? = p.root (.ofChild t.slot?) := by
  induction p generalizing t with
  | nil => rfl
  | cons f up ih =>
    rw [fill_cons, ih, Frame.close, Shape.slot?_branch]
    rfl

theorem mem_slots_of_root {f : Frame} {up : Path} {top : Handle} {slot : Slot}
    (h : root (f :: up) top = .node slot) : slot ∈ slots (f :: up) := by
  induction up generalizing f top with
  | nil =>
    obtain rfl : f.slot = slot := Handle.node.inj h
    exact mem_slots_cons.mpr (.inl rfl)
  | cons g up ih => exact mem_slots_cons.mpr (.inr (.inr (@ih g (.node f.slot) h)))

theorem root_ne_nil : ∀ (p : Path) (slot : Slot), root p (.node slot) ≠ .nil
  | [], _ => nofun
  | f :: up, _ => root_ne_nil up f.slot

end Path

namespace Shape

/-- A node and another shape without any slot in common are led to by different
    links. -/
theorem ofChild_ne_of_disjoint {x y : Shape} (hx : x ≠ nil) (h : x.slots.Disjoint y.slots) :
    Handle.ofChild x.slot? ≠ .ofChild y.slot? := by
  cases x with
  | nil => exact absurd rfl hx
  | node color left slot right =>
    exact fun heq => h (mem_slots_of_slot? rfl) (mem_slots_of_ofChild heq.symm)

/-- A subtree that has a parent is not led to by the link of the header, even
    where it is missing. -/
theorem ofChild_ne_root {f : Frame} {up : Path} {x : Shape} (hnodup : (Path.fill (f :: up) x).slots.Nodup) :
    Handle.ofChild x.slot? ≠ .ofChild (Path.fill (f :: up) x).slot? := by
  obtain ⟨_, _, hapart⟩ := Path.nodup_slots_fill.mp hnodup
  intro hroot
  rw [Path.ofChild_slot?_fill] at hroot
  cases x with
  | nil => exact Path.root_ne_nil up f.slot hroot.symm
  | node color left slot right => exact hapart (mem_slots_of_slot? rfl) (Path.mem_slots_of_root hroot.symm)

@[simp] theorem ofChild_slot?_branch (side : Side) (color : Color) (slot : Slot) (near far : Shape) :
    Handle.ofChild (branch side color slot near far).slot? = .node slot := by
  cases side <;> rfl

end Shape

namespace Overlay

variable {f g : Overlay} {t : Shape} {parent top new : Handle} {side : Side} {color : Color} {slot : Slot}
  {near far : Shape} {p up : Path} {slots more : List Slot} {change : Links → Links}

/-- The change makes the lines of a shape, hung under the given parent, of
    whatever there is in its slots. This is how a program is followed through
    links that make up no tree in between. -/
def Shows (f : Overlay) (parent : Handle) (t : Shape) : Prop :=
  ∀ line ∈ t.links parent, ∀ l, f line.slot l = line

/-- The change makes the lines of what surrounds the end of a path, where the
    given link stands. -/
def Surrounds (f : Overlay) : Path → Handle → Prop
  | [], _ => True
  | frame :: up, top =>
    (∀ l, f frame.slot l =
      .facing frame.side frame.slot frame.color (Path.parent up) top (.ofChild frame.sibling.slot?)) ∧
      f.Shows (.node frame.slot) frame.sibling ∧ f.Surrounds up (.node frame.slot)

/-- The change concerns no other slots than the given ones. -/
def Within (slots : List Slot) (f : Overlay) : Prop :=
  ∀ slot, slot ∉ slots → ∀ l, f slot l = l

/-- The change followed by another parent for the top node of a shape, if there
    is one. -/
def reparent (t : Shape) (parent : Handle) (f : Overlay) : Overlay :=
  match t.slot? with
  | some slot => f.touch slot (Links.withParent parent)
  | .none => f

/-- The change followed by another link at the end of a path. -/
def rehang (p : Path) (top : Handle) (f : Overlay) : Overlay :=
  match p with
  | [] => f
  | frame :: _ => f.touch frame.slot (Links.withChild frame.side top)

theorem shows_nil : f.Shows parent .nil :=
  nofun

theorem shows_branch :
    f.Shows parent (.branch side color slot near far) ↔
      (∀ l, f slot l = .facing side slot color parent (.ofChild near.slot?) (.ofChild far.slot?)) ∧
        f.Shows (.node slot) near ∧ f.Shows (.node slot) far := by
  cases side <;>
    simp only [Shows, Shape.branch, Shape.links, List.forall_mem_append, List.forall_mem_cons, Links.facing] <;> tauto

theorem shows_node {left right : Shape} : f.Shows parent (.node color left slot right) ↔
    (∀ l, f slot l = ⟨slot, color, parent, .ofChild left.slot?, .ofChild right.slot?⟩) ∧
      f.Shows (.node slot) left ∧ f.Shows (.node slot) right := by
  have hbranch : Shape.node color left slot right = .branch .left color slot left right := rfl
  rw [hbranch, shows_branch]
  rfl

theorem shows_fill (p : Path) (t : Shape) :
    f.Shows .header (p.fill t) ↔ f.Surrounds p (.ofChild t.slot?) ∧ f.Shows p.parent t := by
  induction p generalizing t with
  | nil => simp [Surrounds, Path.parent]
  | cons frame up ih =>
    rw [Path.fill_cons, ih, Frame.close, shows_branch, Shape.ofChild_slot?_branch, Surrounds, Path.parent_cons]
    tauto

theorem Shows.congr (h : f.Shows parent t) (hsame : ∀ slot ∈ t.slots, ∀ l, g slot l = f slot l) : g.Shows parent t :=
  fun line hline l => (hsame _ (Shape.mem_slots_of_mem_links hline) l).trans (h line hline l)

theorem Surrounds.congr (h : f.Surrounds p top) (hsame : ∀ slot ∈ p.slots, ∀ l, g slot l = f slot l) :
    g.Surrounds p top := by
  induction p generalizing top with
  | nil => trivial
  | cons frame up ih =>
    obtain ⟨hline, hsibling, hup⟩ := h
    refine ⟨fun l => (hsame _ (Path.mem_slots_cons.mpr (.inl rfl)) l).trans (hline l), ?_, ?_⟩
    · exact hsibling.congr fun slot hslot => hsame slot (Path.mem_slots_cons.mpr (.inr (.inl hslot)))
    · exact ih hup fun slot hslot => hsame slot (Path.mem_slots_cons.mpr (.inr (.inr hslot)))

theorem Shows.touch (h : f.Shows parent t) (hslot : slot ∉ t.slots) : (f.touch slot change).Shows parent t :=
  h.congr fun _ hother _ => touch_of_ne (ne_of_mem_of_not_mem hother hslot)

theorem Surrounds.touch (h : f.Surrounds p top) (hslot : slot ∉ p.slots) : (f.touch slot change).Surrounds p top :=
  h.congr fun _ hother _ => touch_of_ne (ne_of_mem_of_not_mem hother hslot)

theorem Within.touch (h : f.Within slots) (hslot : slot ∈ slots) : (f.touch slot change).Within slots :=
  fun other hother l => (touch_of_ne (ne_of_mem_of_not_mem hslot hother).symm).trans (h other hother l)

theorem reparent_of_notMem {l : Links} (hslot : slot ∉ t.slots) : f.reparent t parent slot l = f slot l := by
  unfold reparent
  cases htop : t.slot? with
  | none => rfl
  | some top => exact touch_of_ne (ne_of_mem_of_not_mem (Shape.mem_slots_of_slot? htop) hslot).symm

/-- With the link of its top node rewritten a shape hangs under another
    parent. -/
theorem Shows.reparent (h : f.Shows parent t) (hnodup : t.slots.Nodup) : (f.reparent t new).Shows new t := by
  cases t with
  | nil => exact shows_nil
  | node color left slot right =>
    obtain ⟨hline, hleft, hright⟩ := shows_node.mp h
    rw [Shape.slots, List.nodup_middle, List.nodup_cons, List.mem_append, not_or] at hnodup
    refine shows_node.mpr ⟨fun l => ?_, hleft.touch hnodup.1.1, hright.touch hnodup.1.2⟩
    exact touch_self.trans (by rw [hline, Links.withParent])

theorem Shows.reparent_apart (h : f.Shows parent t) {u : Shape} (hapart : ∀ slot ∈ t.slots, slot ∉ u.slots) :
    (f.reparent u new).Shows parent t :=
  h.congr fun slot hslot _ => reparent_of_notMem (hapart slot hslot)

theorem Surrounds.reparent (h : f.Surrounds p top) {u : Shape} (hapart : ∀ slot ∈ p.slots, slot ∉ u.slots) :
    (f.reparent u new).Surrounds p top :=
  h.congr fun slot hslot _ => reparent_of_notMem (hapart slot hslot)

theorem rehang_of_notMem {l : Links} (hslot : slot ∉ p.slots) : f.rehang p top slot l = f slot l := by
  cases p with
  | nil => rfl
  | cons frame up => exact touch_of_ne fun heq => hslot (Path.mem_slots_cons.mpr (.inl heq))

/-- With the link at the end of a path rewritten, what surrounds it has the new
    link there. -/
theorem Surrounds.rehang (h : f.Surrounds p top) (hnodup : p.slots.Nodup) : (f.rehang p new).Surrounds p new := by
  cases p with
  | nil => trivial
  | cons frame up =>
    obtain ⟨hline, hsibling, hup⟩ := h
    obtain ⟨hslot, hslotup, _⟩ := Path.nodup_slots_cons.mp hnodup
    refine ⟨fun l => ?_, hsibling.touch hslot, hup.touch hslotup⟩
    exact touch_self.trans (by rw [hline, Links.withChild_facing])

theorem Shows.rehang (h : f.Shows parent t) (hapart : ∀ slot ∈ t.slots, slot ∉ p.slots) :
    (f.rehang p top).Shows parent t :=
  h.congr fun slot hslot _ => rehang_of_notMem (hapart slot hslot)

theorem Within.rehang (h : f.Within slots) (hsub : p.slots ⊆ slots) : (f.rehang p top).Within slots :=
  fun slot hslot l => (rehang_of_notMem fun hmem => hslot (hsub hmem)).trans (h slot hslot l)

end Overlay

/-- The change that makes the lines of a shape in its slots and leaves all
    others as they are. -/
def Shape.overlay (t : Shape) : Overlay :=
  fun slot l => (t.linkage.line? slot).getD l

namespace Shape

variable {t : Shape}

theorem overlay_shows (hnodup : t.slots.Nodup) : t.overlay.Shows .header t := by
  intro line hline l
  rw [overlay, (linkage_agrees hnodup).line?_eq hline]
  rfl

theorem overlay_within : t.overlay.Within t.slots := by
  intro slot hslot l
  have hnone : t.linkage.line? slot = none := by
    rw [Linkage.line?, List.find?_eq_none]
    intro line hline heq
    have hmem := mem_slots_of_mem_links hline
    simp_all
  rw [overlay, hnone]
  rfl

/-- Any change that makes the lines of a shape and concerns no other slots is
    the same. -/
theorem eq_overlay {f : Overlay} (hshows : f.Shows .header t) (hwithin : f.Within t.slots) (slot : Slot) (l : Links) :
    f slot l = t.overlay slot l := by
  cases hline : t.linkage.line? slot with
  | none =>
    have hslot : slot ∉ t.slots := by
      intro hmem
      rw [← map_slot_links .header, List.mem_map] at hmem
      obtain ⟨line, hline', rfl⟩ := hmem
      have hmiss := List.find?_eq_none.mp hline line hline'
      simp at hmiss
    rw [hwithin slot hslot, overlay, hline]
    rfl
  | some line =>
    obtain rfl := Linkage.slot_of_line? hline
    rw [hshows line (List.mem_of_find?_eq_some hline), overlay, hline]
    rfl

end Shape

end RedBlack
