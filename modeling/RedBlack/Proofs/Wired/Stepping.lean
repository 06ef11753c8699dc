import RedBlack.Proofs.Wired.Carrying

namespace RedBlack

open Shape (Links)

namespace Rewiring

variable {α ρ υ : Type} {limit : Nat}

/-- Climbs from a node for as long as that is the child on a side of its
    parent. -/
def climb (side : Side) : Nat → Handle → Rewiring α Handle
  | 0, _ => failure
  | limit + 1, x => do
    let y ← parent x
    if y = .header then return y
    else
      if x = (← child side y) then climb side limit y
      else return y

/-- The node after one, or the header after the last one. -/
def increment (limit : Nat) : Handle → Rewiring α Handle
  | .header => fault .pastEnd
  | x => do
    let below ← child .right x
    if below = .nil then climb .right limit x
    else outermost .left limit below

/-- The outermost node on the right, in front of the header. -/
def lastNode : Rewiring α Handle := do
  let g ← get
  if g.size = 0 then fault .emptyEnd
  else return g.rightmost

/-- Climbs to a node in front, of which there must be one; to come to the header
    instead is a fault. -/
def climbBack (limit : Nat) (x : Handle) : Rewiring α Handle := do
  let y ← climb .left limit x
  if y = .header then fault .beforeFirst
  else return y

/-- The node before one, or the last one before the header. -/
def decrement (limit : Nat) : Handle → Rewiring α Handle
  | .header => lastNode
  | x => do
    let below ← child .left x
    if below = .nil then climbBack limit x
    else outermost .right limit below

/-- The program writes nothing, and ends with the answer or with the fault, but
    is never cut off. -/
def Tells (a : Rewiring α ρ) (g : Wired α) (answer : Except Fault ρ) : Prop :=
  a.run g = (answer.map fun value => some (value, g) : Except Fault (Option (ρ × Wired α)))

variable {g : Wired α} {a : Rewiring α ρ} {f : ρ → Rewiring α υ} {value : ρ} {answer : Except Fault υ}

theorem Leads.tells (h : a.Leads g value g) : a.Tells g (.ok value) :=
  h

theorem Leads.bind_tells (h : a.Leads g value g) (hf : (f value).Tells g answer) : (a >>= f).Tells g answer := by
  have hrun : (a >>= f).run g = a.run g >>= fun done => (f done.1).run done.2 := rfl
  rw [Tells, hrun, h]
  exact hf

theorem tells_fault (g : Wired α) (f : Fault) : (fault f : Rewiring α ρ).Tells g (.error f) :=
  rfl

section Climb

variable {p : Path} {side : Side} {c : Color} {s : Slot} {near far t : Shape}

/-- The climb ends at the nearest node above that lies on the side, or at the
    header. -/
theorem takes_climb (side : Side) (ht : t ≠ .nil) (hnodup : (p.fill t).slots.Nodup) (hlimit : p.length < limit) :
    (climb side limit (.ofChild t.slot?) : Rewiring α Handle).Takes (p.fill t) (.ofEnd (p.nearest side))
      (p.fill t) := by
  induction p generalizing t limit with
  | nil =>
    obtain ⟨limit, rfl⟩ := Nat.exists_eq_succ_of_ne_zero (Nat.ne_of_gt hlimit)
    exact (takes_parentOf [] ht).bind (.ite_pos rfl (.pure _ _))
  | cons frame up ih =>
    obtain ⟨limit, rfl⟩ := Nat.exists_eq_succ_of_ne_zero (Nat.ne_of_gt (Nat.zero_lt_of_lt hlimit))
    obtain ⟨fside, c, s, sibling⟩ := frame
    have hclosed : Frame.close ⟨fside, c, s, sibling⟩ t ≠ .nil := Shape.branch_ne_nil
    have hslot : Handle.node s = .ofChild (Frame.close ⟨fside, c, s, sibling⟩ t).slot? := by
      rw [Frame.close, Shape.ofChild_slot?_branch]
    refine (takes_parentOf (⟨fside, c, s, sibling⟩ :: up) ht).bind (.ite_neg Handle.node_ne_header ?_)
    rw [Path.nearest]
    by_cases hside : fside = side
    · subst hside
      have hgo := ih hclosed hnodup (Nat.lt_of_succ_lt_succ hlimit)
      rw [← hslot] at hgo
      rw [if_neg fside.opposite_ne.symm]
      exact (takes_child up fside c s t sibling).bind (.ite_pos rfl hgo)
    · obtain rfl : fside = side.opposite := by cases fside <;> cases side <;> first | rfl | exact absurd rfl hside
      have hapart : Handle.ofChild t.slot? ≠ .ofChild sibling.slot? := by
        have hbranch : (Path.fill up (.branch side.opposite c s t sibling)).slots.Nodup := hnodup
        obtain ⟨_, _, _, hsides, _⟩ := Shape.apart_of_nodup_fill hbranch
        exact Shape.ofChild_ne_of_disjoint ht hsides
      have hread := takes_child_opposite (α := α) up side.opposite c s t sibling
      rw [Side.opposite_opposite] at hread
      rw [if_pos rfl]
      exact hread.bind (.ite_neg hapart (.pure _ _))

/-- Whether a step to a side goes down or up is told by the link of a node on
    that side. -/
theorem tells_beside {up : Rewiring α ρ} {down : Handle → Rewiring α ρ} {answer : Except Fault ρ}
    (hg : g.Holds (p.fill (.branch side c s near far))) (hnodup : (p.fill (.branch side c s near far)).slots.Nodup)
    (hup : near = .nil → up.Tells g answer) (hdown : near ≠ .nil → (down (.ofChild near.slot?)).Tells g answer) :
    (do
      let below ← child side (.node s)
      if below = .nil then up else down below : Rewiring α ρ).Tells g answer := by
  refine ((takes_child p side c s near far).reads hg hnodup).bind_tells ?_
  by_cases hnear : near = .nil
  · subst hnear
    exact hup rfl
  · rw [if_neg (Shape.ofChild_slot?_ne_nil hnear)]
    exact hdown hnear

/-- Below a node, a step to a side ends at the outermost node on the other
    side. -/
theorem leads_down (hg : g.Holds (p.fill (.branch side c s near far)))
    (hnodup : (p.fill (.branch side c s near far)).slots.Nodup) (hnear : near ≠ .nil) (hlimit : near.height ≤ limit) :
    ∃ slot, near.extreme side.opposite = some slot ∧
      (outermost side.opposite limit (.ofChild near.slot?) : Rewiring α Handle).Leads g (.node slot) g := by
  obtain ⟨slot, hslot⟩ := Shape.exists_extreme side.opposite hnear
  have hreads := (takes_outermost (α := α) (⟨side, c, s, far⟩ :: p) side.opposite hnear hlimit).reads hg hnodup
  rw [hslot] at hreads
  exact ⟨slot, hslot, hreads⟩

theorem leads_up (hg : g.Holds (p.fill (.branch side c s near far)))
    (hnodup : (p.fill (.branch side c s near far)).slots.Nodup) (hlimit : p.length < limit) :
    (climb side limit (.node s) : Rewiring α Handle).Leads g (.ofEnd (p.nearest side)) g := by
  have hne : Shape.branch side c s near far ≠ .nil := Shape.branch_ne_nil
  have hreads := (takes_climb (α := α) side hne hnodup hlimit).reads hg hnodup
  rwa [Shape.ofChild_slot?_branch] at hreads

end Climb

end Rewiring

namespace Wired

variable {α κ : Type} {key : α → κ} {g : Wired α} {t : Tree key} {entries : List (Slot × α)} {o : Outside α}
  {slot : Slot}

/-- Steps over the stored links, which climb by the parents that the nodes name,
    lead where those of the tree do. Where one of those stops, these fail with
    the same fault. -/
structure StepsAs (g : Wired α) (t : Tree key) : Prop where
  increment : ∀ p, t.LiveOrEnd p →
    (Rewiring.increment (g.size + 1) (.ofEnd p.slot)).Tells g ((t.successor p.slot).map .ofEnd)
  decrement : ∀ p, t.LiveOrEnd p →
    (Rewiring.decrement (g.size + 1) (.ofEnd p.slot)).Tells g ((t.predecessor p.slot).map .node)

/-- A node of a tree as its links show it, and the slot that lies beside it on a
    side. -/
theorem Carries.exists_focus (hg : g.Carries t) (h : t.Represents entries o) (side : Side)
    (hslot : slot ∈ t.shape.slots) :
    ∃ (p : Path) (c : Color) (near far : Shape), g.Holds (p.fill (.branch side c slot near far)) ∧
      (p.fill (.branch side c slot near far)).slots.Nodup ∧ p.length < g.size + 1 ∧ near.height ≤ g.size + 1 ∧
      t.beside side slot = .ok ((near.extreme side.opposite).or (p.nearest side)) := by
  obtain ⟨p, c, left, right, hzoom, hfill⟩ := Shape.exists_zoom hslot
  obtain ⟨before, item, after, rfl⟩ := h.exists_entry hslot
  have hitem : t.itemAt slot = .ok item := h.itemAt (e := (slot, item)) (by simp)
  let whole := Shape.node c left slot right
  have hbranch : whole = .branch side c slot (whole.child side) (whole.child side.opposite) := by cases side <;> rfl
  have hshape : t.shape = p.fill (.branch side c slot (whole.child side) (whole.child side.opposite)) := by
    rw [← hbranch, hfill]
  have hdepth := p.length_add_height_le whole
  have hsize : t.shape.height ≤ g.size := by
    have hle := Shape.height_le_size t.shape
    rwa [← Shape.length_slots, h.slots, List.length_map, ← h.size, ← hg.size] at hle
  have hnear : (whole.child side).height < whole.height := by
    cases side <;> simp only [whole, Shape.child, Shape.height] <;> omega
  rw [hfill] at hdepth
  refine ⟨p, c, _, _, hshape ▸ hg.links, hshape ▸ h.nodup, by omega, by omega, ?_⟩
  rw [Tree.beside, hitem, Shape.neighbour, hzoom]
  rfl

theorem Carries.tells_increment (hg : g.Carries t) (h : t.Represents entries o) (hslot : slot ∈ t.shape.slots) :
    (Rewiring.increment (g.size + 1) (.node slot)).Tells g ((t.successor (some slot)).map .ofEnd) := by
  obtain ⟨p, c, near, far, hholds, hnodup, hup, hdown, hbeside⟩ := hg.exists_focus h .right hslot
  rw [Tree.successor, hbeside]
  refine Rewiring.tells_beside hholds hnodup ?_ fun hnear => ?_
  · rintro rfl
    exact (Rewiring.leads_up hholds hnodup hup).tells
  · obtain ⟨first, hfirst, hleads⟩ := Rewiring.leads_down hholds hnodup hnear hdown
    rw [hfirst]
    exact hleads.tells

theorem Carries.tells_decrement (hg : g.Carries t) (h : t.Represents entries o) (hslot : slot ∈ t.shape.slots) :
    (Rewiring.decrement (g.size + 1) (.node slot)).Tells g ((t.predecessor (some slot)).map .node) := by
  obtain ⟨p, c, near, far, hholds, hnodup, hup, hdown, hbeside⟩ := hg.exists_focus h .left hslot
  rw [Tree.predecessor, hbeside]
  refine Rewiring.tells_beside hholds hnodup ?_ fun hnear => ?_
  · rintro rfl
    refine (Rewiring.leads_up hholds hnodup hup).bind_tells ?_
    rw [show (Shape.nil.extreme Side.left.opposite).or (p.nearest .left) = p.nearest .left from rfl]
    cases p.nearest .left with
    | none => exact Rewiring.tells_fault g .beforeFirst
    | some before => rfl
  · obtain ⟨last, hlast, hleads⟩ := Rewiring.leads_down hholds hnodup hnear hdown
    rw [hlast]
    exact hleads.tells

theorem Carries.stepsAs (hg : g.Carries t) (h : t.Represents entries o) : g.StepsAs t where
  increment p hp := by
    obtain ⟨at?, tag⟩ := p
    cases at? with
    | none => exact Rewiring.tells_fault g .pastEnd
    | some slot => exact hg.tells_increment h (hp.2 slot rfl)
  decrement p hp := by
    obtain ⟨at?, tag⟩ := p
    cases at? with
    | none =>
      refine (Rewiring.leads_get g).bind_tells ?_
      rw [hg.size, hg.rightmost, Tree.predecessor, Tree.isEmpty, h.size, h.rightmost]
      cases entries using List.reverseRecOn with
      | nil => exact Rewiring.tells_fault g .emptyEnd
      | append_singleton init e =>
        rw [List.getLast?_concat, if_neg (by simp), if_neg (by simp)]
        rfl
    | some slot => exact hg.tells_decrement h (hp.2 slot rfl)

end Wired

end RedBlack
