import RedBlack.Proofs.Shape.Holes
import RedBlack.Proofs.Wired.RedRepair

namespace RedBlack

open Shape (Links)

/-- The link that a new node gets to the node that it hangs under. -/
def Place.parent : Place → Handle
  | root => .header
  | under parent _ => .node parent

namespace Rewiring

variable {α : Type}

def leftmost : Rewiring α Handle :=
  Wired.leftmost <$> get

def rightmost : Rewiring α Handle :=
  Wired.rightmost <$> get

def setLeftmost (leftmost : Handle) : Rewiring α Unit :=
  modify fun g => { g with leftmost }

def setRightmost (rightmost : Handle) : Rewiring α Unit :=
  modify fun g => { g with rightmost }

/-- Writes the link that leads to a new node. It is asserted that there was
    none; an end gives way to a new child on its outer side. -/
def enter (z : Slot) : Place → Rewiring α Unit
  | .root => do
    if (← root) = .nil then
      setRoot (.node z)
      setLeftmost (.node z)
      setRightmost (.node z)
    else fault .rootTaken
  | .under p .left => do
    if (← child .left (.node p)) = .nil then
      setChild .left (.node p) (.node z)
      if .node p = (← leftmost) then setLeftmost (.node z)
    else fault .leftTaken
  | .under p .right => do
    if (← child .right (.node p)) = .nil then
      setChild .right (.node p) (.node z)
      if .node p = (← rightmost) then setRightmost (.node z)
    else fault .rightTaken

/-- Hangs the node in a slot into a place, red and without children, enters the
    link that leads to it, and mends the colours. -/
def attach (limit : Nat) (z : Slot) (place : Place) : Rewiring α Unit := do
  rewrite (fun _ => ⟨z, .red, place.parent, .nil, .nil⟩) (.node z)
  enter z place
  modify fun g => { g with size := g.size + 1 }
  insertFixup limit (.node z)

end Rewiring

/-- The links of the header to the ends, once a node hangs in a place. -/
def Wired.entered {α : Type} (z : Slot) (g : Wired α) : Place → Wired α
  | .root => { g with leftmost := .node z, rightmost := .node z }
  | .under p .left => if .node p = g.leftmost then { g with leftmost := .node z } else g
  | .under p .right => if .node p = g.rightmost then { g with rightmost := .node z } else g

namespace Wired

variable {α : Type}

@[simp] theorem store_entered (z : Slot) (g : Wired α) (place : Place) : (g.entered z place).store = g.store := by
  unfold entered
  split
  · rfl
  all_goals split <;> rfl

@[simp] theorem size_entered (z : Slot) (g : Wired α) (place : Place) : (g.entered z place).size = g.size := by
  unfold entered
  split
  · rfl
  all_goals split <;> rfl

end Wired

namespace Rewiring

variable {α : Type} {g : Wired α} {p : Path} {z : Slot} {f : Overlay} {limit : Nat} {r : Repaired}

/-- The child that is missing below the new parent is found missing, and the new
    one is entered there. -/
theorem leads_enter_overlaid (hbuilt : ∀ slot ∈ p.slots, g.Built slot) (h : f.Surrounds p .nil) :
    (enter z p.place).Leads (g.overlaid (p.root .nil) f) ()
      ((g.entered z p.place).overlaid (p.root (.node z)) (f.rehang p (.node z))) := by
  cases p with
  | nil =>
    have hroot : (root : Rewiring α Handle).Leads (g.overlaid .nil f) .nil (g.overlaid .nil f) := rfl
    have hends : (do setRoot (.node z); setLeftmost (.node z); setRightmost (.node z) : Rewiring α Unit).Leads
      (g.overlaid .nil f) () ((g.entered z .root).overlaid (.node z) f) := rfl
    exact hroot.bind (.ite_pos rfl hends)
  | cons frame up =>
    obtain ⟨hline, _, _⟩ := h
    have hslot := hbuilt frame.slot (Path.mem_slots_cons.mpr (.inl rfl))
    have hread := leads_read_overlaid (r := Path.root (frame :: up) .nil) hslot hline
    have hwrite := leads_rewrite_overlaid (r := Path.root (frame :: up) .nil) (f := f)
      (c := Links.withChild frame.side (.node z)) hslot
    obtain ⟨side, color, slot, sibling⟩ := frame
    cases side with
    | left =>
      refine (hread.map _).bind (.ite_pos rfl (hwrite.bind ?_))
      by_cases hend : .node slot = g.leftmost
      · rw [Path.place, Wired.entered, if_pos hend]
        exact .ite_pos hend rfl
      · rw [Path.place, Wired.entered, if_neg hend]
        exact .ite_neg hend rfl
    | right =>
      refine (hread.map _).bind (.ite_pos rfl (hwrite.bind ?_))
      by_cases hend : .node slot = g.rightmost
      · rw [Path.place, Wired.entered, if_pos hend]
        exact .ite_pos hend rfl
      · rw [Path.place, Wired.entered, if_neg hend]
        exact .ite_neg hend rfl

/-- A node outside the tree is hung into a place that is free: the program ends
    without a fault, and leaves the links of the repaired shape. -/
theorem leads_attach (hg : g.Holds (p.fill .nil)) (hnodup : (p.fill .nil).slots.Nodup) (hz : z ∉ (p.fill .nil).slots)
    (hbuilt : g.Built z) (hr : p.repairRed (.leaf .red z) = .ok r) (hlimit : p.length < limit) :
    let g₀ : Wired α := { g.entered z p.place with size := (g.entered z p.place).size + 1 }
    let g' := g₀.put r.shape
    (attach limit z p.place).Leads g () g' ∧ g'.Holds r.shape ∧ r.shape.slots.Perm (z :: (p.fill .nil).slots) := by
  intro g₀ g'
  let leaf : Shape := .leaf .red z
  have hslots : (p.fill leaf).slots.Perm (z :: p.slots) := Path.slots_fill_perm p leaf
  have hslots' : (p.fill .nil).slots.Perm p.slots := Path.slots_fill_perm p .nil
  rw [hslots'.mem_iff] at hz
  have hp : p.slots.Nodup := hslots'.nodup_iff.mp hnodup
  have howns : g.Owns (p.fill leaf).slots := by
    refine ⟨hslots.nodup_iff.mpr (List.nodup_cons.mpr ⟨hz, hp⟩), fun slot hslot => ?_⟩
    obtain rfl | hslot := List.mem_cons.mp (hslots.mem_iff.mp hslot)
    · exact hbuilt
    · exact (hg.owns hnodup).built slot (hslots'.mem_iff.mpr hslot)
  let f : Overlay := (p.fill .nil).overlay.touch z fun _ => ⟨z, .red, p.place.parent, .nil, .nil⟩
  have hsurrounds : f.Surrounds p .nil :=
    ((Overlay.shows_fill p .nil).mp (Shape.overlay_shows hnodup)).1.touch hz
  have hshows : (f.rehang p (.node z)).Shows .header (p.fill leaf) := by
    rw [Overlay.shows_fill]
    refine ⟨hsurrounds.rehang hp, fun line hline l => ?_⟩
    obtain rfl := List.mem_singleton.mp (show line ∈ [⟨z, .red, p.parent, .nil, .nil⟩] from hline)
    rw [Overlay.rehang_of_notMem hz]
    exact Overlay.touch_self.trans (by cases p <;> rfl)
  have hwithin : (f.rehang p (.node z)).Within (p.fill leaf).slots := by
    refine Overlay.Within.rehang (Overlay.Within.touch (fun slot hslot => ?_) ?_) ?_
    · exact Shape.overlay_within slot fun hmem => hslot (hslots.mem_iff.mpr (.tail _ (hslots'.mem_iff.mp hmem)))
    · exact hslots.mem_iff.mpr List.mem_cons_self
    · exact fun slot hslot => hslots.mem_iff.mpr (List.mem_cons_of_mem _ hslot)
  have hroot : Handle.ofChild (p.fill leaf).slot? = p.root (.node z) := Path.ofChild_slot?_fill p leaf
  have hwrite := leads_rewrite_overlaid (g := g) (r := p.root .nil) (f := (p.fill .nil).overlay)
    (c := fun _ => ⟨z, .red, p.place.parent, .nil, .nil⟩) hbuilt
  have henter := leads_enter_overlaid (g := g) (z := z)
    (fun slot hslot => (hg.owns hnodup).built slot (hslots'.mem_iff.mpr hslot)) hsurrounds
  have hstart : g.overlaid (p.root .nil) (p.fill .nil).overlay = g := hg.overlaid_fill hnodup
  rw [hstart] at hwrite
  have hgrown : (modify fun g => { g with size := g.size + 1 } : Rewiring α Unit).Leads
      ((g.entered z p.place).overlaid (p.root (.node z)) (f.rehang p (.node z))) () (g₀.put (p.fill leaf)) := by
    rw [← Wired.overlaid_eq_put hshows hwithin, hroot]
    rfl
  have htakes := takes_insertFixup (α := α) hr nofun howns.nodup hlimit
  have howns' : g₀.Owns (p.fill leaf).slots := howns.of_store (Wired.store_entered z g p.place)
  refine ⟨hwrite.bind (henter.bind (hgrown.bind (htakes.leads g₀ howns'))), ?_, ?_⟩
  · exact Wired.holds_put (htakes.slots ▸ howns')
  · rw [htakes.slots]
    exact hslots.trans (hslots'.symm.cons z)

end Rewiring

end RedBlack
