import RedBlack.Proofs.Wired.Growth
import RedBlack.Proofs.Wired.LackRepair
import RedBlack.Proofs.Wired.Splicing

namespace RedBlack

open Shape (Links)

namespace Rewiring

variable {α : Type}

/-- What an end `z` leaves its role to: the outermost node of its only subtree,
    whose top is `x`, or else its parent. -/
def endWithout (side : Side) (limit : Nat) (z x xp : Handle) : Rewiring α Handle := do
  if (← child side.opposite z) = .nil then return xp
  else outermost side limit x

def yieldLeftmost (limit : Nat) (z x xp : Handle) : Rewiring α Unit := do
  if (← leftmost) = z then setLeftmost (← endWithout .left limit z x xp)

def yieldRightmost (limit : Nat) (z x xp : Handle) : Rewiring α Unit := do
  if (← rightmost) = z then setRightmost (← endWithout .right limit z x xp)

/-- Puts the only child `x` of the node `z`, which may be missing, in the place
    of that. It gives the colour that is gone, and the parent of the place where
    it is gone. -/
def bypass (limit : Nat) (z x : Handle) : Rewiring α (Color × Handle) := do
  let xp ← parent z
  setParent? x xp
  replaceChild xp z x
  yieldLeftmost limit z x xp
  yieldRightmost limit z x xp
  return (← color z, xp)

/-- Gives the node `y` the place and the colour of the node `z`, and that the
    colour of `y`. -/
def takeOver (z y : Handle) : Rewiring α Color := do
  let zp ← parent z
  replaceChild zp z y
  setParent y zp
  let zc ← color z
  let yc ← color y
  setColor zc y
  setColor yc z
  return yc

/-- Puts the successor `y` of the node `z` in the place of that, and the only
    child `x` of the successor, which may be missing, in the place where the
    successor was. -/
def supersede (z y x : Handle) : Rewiring α (Color × Handle) := do
  let zl ← child .left z
  setParent zl y
  setChild .left y zl
  let xp ←
    if y ≠ (← child .right z) then do
      let xp ← parent y
      setParent? x xp
      setChild .left xp x
      let zr ← child .right z
      setChild .right y zr
      setParent zr y
      pure xp
    else pure y
  return (← takeOver z y, xp)

/-- Takes the node `z` out, where `y` is the node or its successor and `x` the
    only child of that, and restores the balance. -/
def takeOut (limit : Nat) (z y x : Handle) : Rewiring α Unit := do
  let (removed, xp) ← if y = z then bypass limit z x else supersede z y x
  if removed = .black then eraseFixup limit x xp

/-- Takes the node `z` out of the tree. Where it has two children its successor
    goes from its own place first. -/
def unlink (limit : Nat) (z : Handle) : Rewiring α Unit := do
  if (← child .left z) = .nil then takeOut limit z z (← child .right z)
  else
    if (← child .right z) = .nil then takeOut limit z z (← child .left z)
    else
      let y ← outermost .left limit (← child .right z)
      takeOut limit z y (← child .right y)

end Rewiring

/-- The links of the header to the ends, once a node with one subtree at most is
    gone. -/
def Wired.bypassed {α : Type} (z : Slot) (up : Path) (left right : Shape) (g : Wired α) : Wired α :=
  { g with
    leftmost := if g.leftmost = .node z then .ofEnd (up.extremeWithout .left right) else g.leftmost
    rightmost := if g.rightmost = .node z then .ofEnd (up.extremeWithout .right left) else g.rightmost }

namespace Rewiring

variable {α : Type} {g : Wired α} {f : Overlay} {root : Handle} {limit : Nat}

/-- The links on a side lead down to the outermost node there. -/
theorem leads_outermost_overlaid {t : Shape} {parent : Handle} (side : Side) (hbuilt : ∀ slot ∈ t.slots, g.Built slot)
    (h : f.Shows parent t) (ht : t ≠ .nil) (hlimit : t.height ≤ limit) :
    (outermost side limit (.ofChild t.slot?)).Leads (g.overlaid root f) (.ofChild (t.extreme side))
      (g.overlaid root f) := by
  induction limit generalizing t parent with
  | zero =>
    cases t with
    | nil => exact absurd rfl ht
    | node => cases hlimit
  | succ limit ih =>
    obtain rfl | ⟨c, s, near, far, rfl⟩ := Shape.eq_nil_or_branch side t
    · exact absurd rfl ht
    obtain ⟨hline, hnear, _⟩ := Overlay.shows_branch.mp h
    have hread := (leads_read_overlaid (r := root) (hbuilt s (Shape.mem_slots_branch.mpr (.inl rfl))) hline).map
      (Links.child side)
    rw [Links.child_facing] at hread
    rw [Shape.ofChild_slot?_branch]
    refine hread.bind ?_
    by_cases hnil : near = .nil
    · subst hnil
      have hextreme : (Shape.branch side c s .nil far).extreme side = some s := by cases side <;> rfl
      rw [hextreme]
      exact .ite_pos rfl (.pure _ _)
    · obtain ⟨slot, hslot⟩ := Shape.exists_extreme side hnil
      have hdeep := ih (fun slot hslot => hbuilt slot (Shape.mem_slots_branch.mpr (.inr (.inl hslot)))) hnear hnil
        (Nat.le_of_lt_succ (Nat.lt_of_lt_of_le Shape.height_lt_branch hlimit))
      rw [Shape.extreme_branch, hslot, Option.some_or, ← hslot]
      exact .ite_neg (Shape.ofChild_slot?_ne_nil hnil) hdeep

theorem takes_outermost (p : Path) {t : Shape} (side : Side) (ht : t ≠ .nil) (hlimit : t.height ≤ limit) :
    (outermost side limit (.ofChild t.slot?) : Rewiring α Handle).Takes (p.fill t) (.ofChild (t.extreme side))
      (p.fill t) := by
  refine ⟨rfl, fun g hg => ?_⟩
  obtain ⟨_, hshows⟩ := (Overlay.shows_fill p t).mp (Shape.overlay_shows hg.nodup)
  refine leads_outermost_overlaid side (fun slot hslot => hg.built slot ?_) hshows ht hlimit
  exact (Path.slots_fill_perm p t).mem_iff.mpr (List.mem_append_left _ hslot)

end Rewiring

namespace Rewiring

variable {α : Type} {g : Wired α} {f : Overlay} {root : Handle} {limit : Nat} {q : Path} {c : Color} {z : Slot}
  {left right x : Shape}

theorem leads_endWithout_overlaid {r : Handle} {far : Shape} {line : Links} (side : Side) (hz : g.Built z)
    (hline : ∀ l, f z l = line)
    (hchild : line.child side.opposite = .ofChild far.slot?) (hx : far ≠ .nil → x = far)
    (hbuilt : ∀ slot ∈ x.slots, g.Built slot) (hshows : f.Shows q.parent x) (hlimit : x.height ≤ limit) :
    (endWithout side limit (.node z) (.ofChild x.slot?) q.parent).Leads (g.overlaid r f)
      (.ofEnd (q.extremeWithout side far)) (g.overlaid r f) := by
  have hread := (leads_read_overlaid (r := r) hz hline).map (Links.child side.opposite)
  rw [hchild] at hread
  refine hread.bind ?_
  by_cases hfar : far = .nil
  · subst hfar
    rw [Path.ofEnd_extremeWithout_nil]
    exact .ite_pos rfl (.pure _ _)
  · obtain rfl := hx hfar
    rw [Path.ofEnd_extremeWithout side q hfar]
    exact .ite_neg (Shape.ofChild_slot?_ne_nil hfar) (leads_outermost_overlaid side hbuilt hshows hfar hlimit)

/-- A node with one subtree at most is bypassed. Its own line stays as it
    was. -/
theorem leads_bypass_overlaid (hg : g.Owns (q.fill (.node c left z right)).slots)
    (h : f.Shows .header (q.fill (.node c left z right))) (hone : Shape.Only left right x) (hlimit : x.height ≤ limit) :
    (bypass limit (.node z) (.ofChild x.slot?)).Leads (g.overlaid (q.root (.node z)) f) (c, q.parent)
      ((g.bypassed z q left right).overlaid (q.root (.ofChild x.slot?)) (f.bypass q x)) := by
  obtain ⟨hzx, hzq, hxq, hx, hq⟩ := hone.apart hg.nodup
  obtain ⟨hsurrounds, hline, hshowsx⟩ := h.only hone
  have hbuilt (slot : Slot) (hslot : slot = z ∨ slot ∈ x.slots ∨ slot ∈ q.slots) : g.Built slot :=
    hg.built slot (hone.mem_slots.mpr hslot)
  have hz := hbuilt z (.inl rfl)
  have hother : ∀ frame ∈ q.head?, Handle.ofChild frame.sibling.slot? ≠ .node z := by
    intro frame hframe heq
    obtain ⟨up, rfl⟩ := List.head?_eq_some_iff.mp hframe
    exact hzq (Path.mem_slots_cons.mpr (.inr (.inl (Shape.mem_slots_of_ofChild heq))))
  have hstays (l : Links) : f.bypass q x z l = ⟨z, c, q.parent, .ofChild left.slot?, .ofChild right.slot?⟩ := by
    rw [Overlay.bypass, Overlay.rehang_of_notMem hzq, Overlay.reparent_of_notMem hzx]
    exact hline l
  have hlifted : (f.bypass q x).Shows q.parent x :=
    ((Overlay.shows_fill q x).mp (.bypass hsurrounds hshowsx hq hx hxq)).2
  let g₁ : Wired α :=
    { g with leftmost := if g.leftmost = .node z then .ofEnd (q.extremeWithout .left right) else g.leftmost }
  have hbuilt₁ (slot : Slot) (hslot : slot ∈ x.slots) : g.Built slot := hbuilt slot (.inr (.inl hslot))
  have hleftmost : (yieldLeftmost limit (.node z) (.ofChild x.slot?) q.parent).Leads
      (g.overlaid (q.root (.ofChild x.slot?)) (f.bypass q x)) ()
      (g₁.overlaid (q.root (.ofChild x.slot?)) (f.bypass q x)) := by
    have hend := leads_endWithout_overlaid (r := q.root (.ofChild x.slot?)) .left hz hstays rfl
      (by unfold Shape.Only at hone; tauto) hbuilt₁ hlifted hlimit
    by_cases hz : g.leftmost = .node z
    · simp only [g₁, if_pos hz]
      exact .bind (v := g.leftmost) rfl (.ite_pos hz (hend.bind rfl))
    · simp only [g₁, if_neg hz]
      exact .bind (v := g.leftmost) rfl (.ite_neg hz (.pure _ _))
  have hrightmost : (yieldRightmost limit (.node z) (.ofChild x.slot?) q.parent).Leads
      (g₁.overlaid (q.root (.ofChild x.slot?)) (f.bypass q x)) ()
      ((g.bypassed z q left right).overlaid (q.root (.ofChild x.slot?)) (f.bypass q x)) := by
    have hend := leads_endWithout_overlaid (g := g₁) (r := q.root (.ofChild x.slot?)) .right hz hstays
      rfl (by unfold Shape.Only at hone; tauto) hbuilt₁ hlifted hlimit
    by_cases hz : g₁.rightmost = .node z
    · rw [Wired.bypassed, if_pos hz]
      exact .bind (v := g.rightmost) rfl (.ite_pos hz (hend.bind rfl))
    · rw [Wired.bypassed, if_neg hz]
      exact .bind (v := g.rightmost) rfl (.ite_neg hz (.pure _ _))
  refine ((leads_read_overlaid hz hline).map _).bind ?_
  refine (leads_setParent?_overlaid hbuilt₁ _).bind ?_
  refine (leads_replaceChild_overlaid (fun slot hslot => hbuilt slot (.inr (.inr hslot))) (hsurrounds.reparent hxq)
    hother).bind ?_
  refine hleftmost.bind (hrightmost.bind ?_)
  have hcolor := (leads_read_overlaid (g := g.bypassed z q left right) (r := q.root (.ofChild x.slot?)) hz hstays).map
    Links.color
  exact hcolor.bind (.pure _ _)

end Rewiring

section Succession

variable {q inner : Path} {z y : Slot} {c removed : Color} {left rest below : Shape}

namespace Rewiring

variable {α : Type} {g : Wired α} {f : Overlay} {root : Handle} {limit : Nat}

theorem leads_setParent_overlaid {t : Shape} (hbuilt : ∀ slot ∈ t.slots, g.Built slot) (ht : t ≠ .nil)
    (parent : Handle) :
    (setParent (.ofChild t.slot?) parent).Leads (g.overlaid root f) () (g.overlaid root (f.reparent t parent)) := by
  cases t with
  | nil => exact absurd rfl ht
  | node color left slot right => exact leads_rewrite_overlaid (hbuilt slot (by simp [Shape.slots]))

theorem leads_takeOver_overlaid {node heir : Links}
    (hbuilt : ∀ slot, slot = z ∨ slot = y ∨ slot ∈ q.slots → g.Built slot)
    (hz : ∀ l, f z l = node) (hparent : node.parent = q.parent) (hy : ∀ l, f y l = heir)
    (hq : f.Surrounds q (.node z)) (hzy : z ≠ y) (hzq : z ∉ q.slots) (hyq : y ∉ q.slots) :
    (takeOver (.node z) (.node y)).Leads (g.overlaid (q.root (.node z)) f) heir.color
      (g.overlaid (q.root (.node y)) (f.takeOver q z y node.color heir.color)) := by
  have hother : ∀ frame ∈ q.head?, Handle.ofChild frame.sibling.slot? ≠ .node z := by
    intro frame hframe heq
    obtain ⟨up, rfl⟩ := List.head?_eq_some_iff.mp hframe
    exact hzq (Path.mem_slots_cons.mpr (.inr (.inl (Shape.mem_slots_of_ofChild heq))))
  have hz' (l : Links) : (f.rehang q (.node y)).touch y (Links.withParent q.parent) z l = node := by
    rw [Overlay.touch_of_ne hzy, Overlay.rehang_of_notMem hzq, hz]
  have hy' (l : Links) : (f.rehang q (.node y)).touch y (Links.withParent q.parent) y l = heir.withParent q.parent := by
    rw [Overlay.touch_self, Overlay.rehang_of_notMem hyq, hy]
  refine ((leads_read_overlaid (hbuilt z (.inl rfl)) hz).map _).bind ?_
  rw [hparent]
  refine (leads_replaceChild_overlaid (fun slot hslot => hbuilt slot (.inr (.inr hslot))) hq hother).bind ?_
  refine (leads_rewrite_overlaid (hbuilt y (.inr (.inl rfl)))).bind ?_
  refine ((leads_read_overlaid (hbuilt z (.inl rfl)) hz').map Links.color).bind ?_
  refine ((leads_read_overlaid (hbuilt y (.inr (.inl rfl))) hy').map Links.color).bind ?_
  refine (leads_rewrite_overlaid (hbuilt y (.inr (.inl rfl)))).bind ?_
  exact (leads_rewrite_overlaid (hbuilt z (.inl rfl))).bind (.pure _ _)

/-- The writes of the program where the successor is the right child of the
    node. -/
theorem leads_supersede_near
    (hg : g.Owns (q.fill (.branch .left c z left (.branch .left removed y .nil rest))).slots)
    (h : f.Shows .header (q.fill (.branch .left c z left (.branch .left removed y .nil rest)))) (hleft : left ≠ .nil) :
    (supersede (.node z) (.node y) (.ofChild rest.slot?)).Leads (g.overlaid (q.root (.node z)) f) (removed, .node y)
      (g.overlaid (q.root (.node y)) ((f.adoptLeft y left).takeOver q z y c removed)) := by
  have hs : Shape.Succession q [] z y left rest := Shape.succession hg.nodup
  obtain ⟨hzy, ⟨hzleft, _, _, hzq⟩, ⟨hyleft, _, _, hyq⟩, _, ⟨_, _, hleftq⟩, _⟩ := hs
  obtain ⟨hsurrounds, hshows⟩ := (Overlay.shows_fill q _).mp h
  rw [Shape.ofChild_slot?_branch] at hsurrounds
  obtain ⟨hnode, _, hshows⟩ := Overlay.shows_branch.mp hshows
  obtain ⟨hheir, _, _⟩ := Overlay.shows_branch.mp hshows
  rw [Shape.ofChild_slot?_branch] at hnode
  have hbuilt (slot : Slot) (hslot : slot = z ∨ slot ∈ left.slots ∨ slot = y ∨ slot ∈ rest.slots ∨ slot ∈ q.slots) :
      g.Built slot := hg.built slot ((Shape.Succession.mem_whole []).mpr hslot)
  have hz := hbuilt z (.inl rfl)
  have hy := hbuilt y (.inr (.inr (.inl rfl)))
  have hnode' (l : Links) : f.adoptLeft y left z l = _ := (Overlay.adoptLeft_of_notMem hzleft hzy).trans (hnode l)
  have hheir' := Overlay.adoptLeft_heir hyleft hheir
  have hsurrounds' : (f.adoptLeft y left).Surrounds q (.node z) :=
    (hsurrounds.reparent fun slot hslot hmem => hleftq hmem hslot).touch hyq
  refine ((leads_read_overlaid hz hnode).map _).bind ?_
  refine (leads_setParent_overlaid (fun slot hslot => hbuilt slot (.inr (.inl hslot))) hleft _).bind ?_
  refine (leads_rewrite_overlaid hy).bind ?_
  have htake := leads_takeOver_overlaid (g := g) (fun slot hslot => hbuilt slot (by tauto)) hnode' rfl hheir'
    hsurrounds' hzy hzq hyq
  refine ((leads_read_overlaid hz hnode').map _).bind (.ite_neg (fun hne => hne rfl) ?_)
  exact Leads.bind (.pure _ _) (htake.bind (.pure _ _))

/-- The writes of the program where the successor lies farther down. -/
theorem leads_supersede_deep {frame : Frame} {up : Path} (hinner : inner = frame :: up) (hside : frame.side = .left)
    (hg : g.Owns (q.fill (.branch .left c z left (inner.fill (.branch .left removed y .nil rest)))).slots)
    (h : f.Shows .header (q.fill (.branch .left c z left (inner.fill (.branch .left removed y .nil rest)))))
    (hleft : left ≠ .nil) :
    (supersede (.node z) (.node y) (.ofChild rest.slot?)).Leads (g.overlaid (q.root (.node z)) f)
      (removed, .node frame.slot)
      (g.overlaid (q.root (.node y))
        ((((f.adoptLeft y left).bypass inner rest).adoptRight y (inner.fill rest)).takeOver q z y c removed)) := by
  have hs := Shape.succession hg.nodup
  obtain ⟨hzleft, hzrest, hzinner, hzq⟩ := hs.node
  obtain ⟨hyleft, _, _, hyq⟩ := hs.heir
  obtain ⟨hz, hy⟩ := hs.notMem_below
  have hzy := hs.slots
  have hbuilt (slot : Slot) (hslot : slot = z ∨ slot ∈ left.slots ∨ slot = y ∨ slot ∈ (inner.fill rest).slots ∨
      slot ∈ q.slots) : g.Built slot := hg.built slot ((Shape.Succession.mem_whole inner).mpr hslot)
  have hbelow : inner.fill rest ≠ .nil := by
    rw [hinner]
    exact Path.fill_cons_ne_nil frame up rest
  have htop : Handle.ofChild (inner.fill (.branch .left removed y .nil rest)).slot? =
      .ofChild (inner.fill rest).slot? := by
    rw [Path.ofChild_slot?_fill, Path.ofChild_slot?_fill, hinner]
    rfl
  obtain ⟨hsurrounds, hshows⟩ := (Overlay.shows_fill q _).mp h
  rw [Shape.ofChild_slot?_branch] at hsurrounds
  obtain ⟨hnode, _, _⟩ := Overlay.shows_branch.mp hshows
  rw [htop] at hnode
  have hheir (l : Links) : f y l = .facing .left y removed (.node frame.slot) .nil (.ofChild rest.slot?) := by
    have hp : Path.fill (inner ++ ⟨.right, c, z, left⟩ :: q) (.branch .left removed y .nil rest) =
        q.fill (.branch .left c z left (inner.fill (.branch .left removed y .nil rest))) := Path.fill_append ..
    rw [← hp, Overlay.shows_fill, Overlay.shows_branch, hinner] at h
    exact h.2.1 l
  have hnode₁ (l : Links) : f.adoptLeft y left z l = _ := (Overlay.adoptLeft_of_notMem hzleft hzy).trans (hnode l)
  have hheir₁ := Overlay.adoptLeft_heir hyleft hheir
  have hnode₂ (l : Links) : (f.adoptLeft y left).bypass inner rest z l = _ :=
    (Overlay.bypass_of_notMem hzrest hzinner).trans (hnode₁ l)
  have hnode₃ (l : Links) : ((f.adoptLeft y left).bypass inner rest).adoptRight y (inner.fill rest) z l = _ :=
    (Overlay.adoptRight_of_notMem hz hzy).trans (hnode₂ l)
  have hheir₃ := Overlay.adopt_heir hs hheir
  have hsurrounds' := hsurrounds.adopt hs
  have hset : (setChild .left (.node frame.slot) (.ofChild rest.slot?)).Leads
      (g.overlaid (q.root (.node z)) ((f.adoptLeft y left).reparent rest (.node frame.slot))) ()
      (g.overlaid (q.root (.node z)) ((f.adoptLeft y left).bypass inner rest)) := by
    have hwrite := leads_rewrite_overlaid (r := q.root (.node z))
      (f := (f.adoptLeft y left).reparent rest (.node frame.slot))
      (c := Links.withChild frame.side (.ofChild rest.slot?)) (hbuilt frame.slot ?_)
    · rw [hside] at hwrite
      rw [hinner, Overlay.bypass, Overlay.rehang, hside]
      exact hwrite
    · rw [hinner]
      exact .inr (.inr (.inr (.inl ((Path.slots_fill_perm _ _).mem_iff.mpr
        (List.mem_append_right _ (Path.mem_slots_cons.mpr (.inl rfl)))))))
  have htake := leads_takeOver_overlaid (g := g) (fun slot hslot => hbuilt slot (by tauto)) hnode₃ rfl hheir₃
    hsurrounds' hzy hzq hyq
  refine ((leads_read_overlaid (hbuilt z (.inl rfl)) hnode).map _).bind ?_
  refine (leads_setParent_overlaid (fun slot hslot => hbuilt slot (.inr (.inl hslot))) hleft _).bind ?_
  refine (leads_rewrite_overlaid (hbuilt y (by tauto))).bind ?_
  refine ((leads_read_overlaid (hbuilt z (.inl rfl)) hnode₁).map _).bind (.ite_pos ?_ ?_)
  · exact fun heq => hy (Shape.mem_slots_of_ofChild heq.symm)
  refine ((leads_read_overlaid (hbuilt y (by tauto)) hheir₁).map _).bind ?_
  have hrest : ∀ slot ∈ rest.slots, g.Built slot := fun slot hslot =>
    hbuilt slot (by simp [Shape.Succession.mem_below, hslot])
  refine (leads_setParent?_overlaid hrest _).bind (hset.bind ?_)
  refine ((leads_read_overlaid (hbuilt z (.inl rfl)) hnode₂).map _).bind ?_
  refine (leads_rewrite_overlaid (hbuilt y (by tauto))).bind ?_
  refine (leads_setParent_overlaid (fun slot hslot => hbuilt slot (by tauto)) hbelow _).bind ?_
  exact Leads.bind (.pure _ _) (htake.bind (.pure _ _))

end Rewiring

end Succession

/-- The links of the header to the ends, once a node is gone. A node with two
    subtrees is no end. -/
def Wired.without {α : Type} (z : Slot) (t : Shape) (g : Wired α) : Wired α :=
  match t.zoom z [] with
  | some (up, .node _ left _ right) => if left ≠ .nil ∧ right ≠ .nil then g else g.bypassed z up left right
  | _ => g

namespace Rewiring

variable {α : Type} {g : Wired α} {limit : Nat} {r : Repaired} {t : Shape} {z : Slot}

/-- Where a node is gone the lack that it leaves is made good. -/
theorem exists_leads_closeGap {p : Path} {x : Shape} {removed : Color} {f : Overlay} (hg : g.Owns (p.fill x).slots)
    (h : f.Shows .header (p.fill x)) (hr : p.closeGap removed x = .ok r) (hlimit : p.length < limit) :
    ∃ root f', (if removed = .black then eraseFixup limit (.ofChild x.slot?) p.parent else pure ()).Leads
      (g.overlaid (p.root (.ofChild x.slot?)) f) () (g.overlaid root f') ∧ (g.overlaid root f').Holds r.shape := by
  have hholds := Wired.holds_overlaid hg h
  rw [Path.ofChild_slot?_fill] at hholds
  cases removed with
  | red =>
    obtain rfl := Except.ok.inj hr
    exact ⟨_, f, .ite_neg nofun (.pure _ _), hholds⟩
  | black =>
    obtain ⟨hleads, hholds'⟩ := (takes_eraseFixup hr hg.nodup hlimit).holds hholds hg.nodup
    rw [Wired.put, Wired.overlaid, Wired.overlaid, Store.relink_relink] at hleads hholds'
    exact ⟨.ofChild r.shape.slot?, fun slot l => r.shape.overlay slot (f slot l), .ite_pos rfl hleads, hholds'⟩

section

variable {q inner : Path} {y : Slot} {c removed : Color} {left right rest x : Shape}

theorem leads_takeOut_bypass (hg : g.Holds (q.fill (.node c left z right)))
    (hnodup : (q.fill (.node c left z right)).slots.Nodup) (hone : Shape.Only left right x)
    (hr : q.closeGap c x = .ok r) (hlimit : q.length + x.height < limit) :
    ∃ root f, (takeOut limit (.node z) (.node z) (.ofChild x.slot?)).Leads g ()
      ((g.bypassed z q left right).overlaid root f) ∧ ((g.bypassed z q left right).overlaid root f).Holds r.shape := by
  let t := q.fill (.node c left z right)
  have howns : g.Owns t.slots := hg.owns hnodup
  have hshows : t.overlay.Shows .header t := Shape.overlay_shows hnodup
  have hstart : g.overlaid (q.root (.node z)) t.overlay = g := hg.overlaid_fill hnodup
  have hbypass := leads_bypass_overlaid (g := g) howns hshows hone
    (Nat.le_of_lt (Nat.lt_of_le_of_lt (Nat.le_add_left _ _) hlimit))
  rw [hstart] at hbypass
  obtain ⟨_, _, hxq, hx, hq⟩ := hone.apart hnodup
  obtain ⟨hsurrounds, _, hshowsx⟩ := hshows.only hone
  have hslots : (q.fill x).slots ⊆ t.slots := by
    intro slot hslot
    rw [(Path.slots_fill_perm q x).mem_iff, List.mem_append] at hslot
    exact hone.mem_slots.mpr (.inr hslot)
  have hnodup' : (q.fill x).slots.Nodup := Path.nodup_slots_fill.mpr ⟨hx, hq, List.disjoint_symm hxq⟩
  obtain ⟨root, f, hleads, hholds⟩ := exists_leads_closeGap (g := g.bypassed z q left right)
    ((howns.mono hnodup' hslots).of_store rfl) (.bypass hsurrounds hshowsx hq hx hxq) hr
    (Nat.lt_of_le_of_lt (Nat.le_add_right _ _) hlimit)
  exact ⟨root, f, .ite_pos rfl (hbypass.bind hleads), hholds⟩

/-- On the way down to the successor the last step goes to the left, if it is
    not the first one. -/
theorem side_of_slotsBefore_eq_nil {frame : Frame} {up : Path} (h : Path.slotsBefore (frame :: up) = []) :
    frame.side = .left := by
  cases hside : frame.side with
  | left => rfl
  | right => simp [Path.slotsBefore_cons, hside] at h

theorem leads_takeOut_supersede (hg : g.Holds (q.fill (.node c left z (inner.fill (.node removed .nil y rest)))))
    (hnodup : (q.fill (.node c left z (inner.fill (.node removed .nil y rest)))).slots.Nodup) (hleft : left ≠ .nil)
    (hinner : inner.slotsBefore = []) (hr : Path.closeGap (inner ++ ⟨.right, c, y, left⟩ :: q) removed rest = .ok r)
    (hlimit : inner.length + 1 + q.length < limit) :
    ∃ root f, (takeOut limit (.node z) (.node y) (.ofChild rest.slot?)).Leads g () (g.overlaid root f) ∧
      (g.overlaid root f).Holds r.shape := by
  let t := q.fill (.node c left z (inner.fill (.node removed .nil y rest)))
  have howns : g.Owns t.slots := hg.owns hnodup
  have hshows : t.overlay.Shows .header t := Shape.overlay_shows hnodup
  have hs : Shape.Succession q inner z y left rest := Shape.succession hnodup
  have hstart : g.overlaid (q.root (.node z)) t.overlay = g := hg.overlaid_fill hnodup
  let p : Path := inner ++ ⟨.right, c, y, left⟩ :: q
  have hp : p.fill rest = q.fill (.branch .left c y left (inner.fill rest)) := Path.fill_append ..
  have hroot : p.root (.ofChild rest.slot?) = q.root (.node y) := by
    rw [← Path.ofChild_slot?_fill, hp, Path.ofChild_slot?_fill, Shape.ofChild_slot?_branch]
  have howns' : g.Owns (p.fill rest).slots := by
    rw [hp]
    refine howns.mono hs.nodup_fill fun slot hslot => ?_
    rw [(Path.slots_fill_perm q _).mem_iff, List.mem_append, Shape.mem_slots_branch] at hslot
    refine (Shape.Succession.mem_whole inner).mpr ?_
    tauto
  have hlength : p.length < limit := by
    rw [List.length_append, List.length_cons]
    omega
  have hclosed {f : Overlay} (hf : f.Shows .header (q.fill (.branch .left c y left (inner.fill rest))))
      (hsuper : (supersede (.node z) (.node y) (.ofChild rest.slot?)).Leads g (removed, p.parent)
        (g.overlaid (q.root (.node y)) f)) :
      ∃ root f, (takeOut limit (.node z) (.node y) (.ofChild rest.slot?)).Leads g () (g.overlaid root f) ∧
        (g.overlaid root f).Holds r.shape := by
    obtain ⟨root, f', hleads, hholds⟩ := exists_leads_closeGap howns' (hp ▸ hf) hr hlength
    rw [hroot] at hleads
    exact ⟨root, f', .ite_neg (fun heq => hs.slots (Handle.node.inj heq).symm) (hsuper.bind hleads), hholds⟩
  cases inner with
  | nil =>
    have hsuper := leads_supersede_near howns hshows hleft
    rw [hstart] at hsuper
    exact hclosed (hshows.supersede_near hnodup) hsuper
  | cons frame up =>
    have hsuper := leads_supersede_deep rfl (side_of_slotsBefore_eq_nil hinner) howns hshows hleft
    rw [hstart] at hsuper
    exact hclosed (hshows.supersede_deep rfl hnodup) hsuper

end

/-- The links lead down on the left from the right child of a node to the node
    that follows it, which has at most a right child. -/
theorem leads_successor {q inner : Path} {y : Slot} {c removed : Color} {left rest : Shape}
    (hg : g.Holds (q.fill (.node c left z (inner.fill (.node removed .nil y rest)))))
    (hnodup : (q.fill (.node c left z (inner.fill (.node removed .nil y rest)))).slots.Nodup)
    (hright : inner.fill (.node removed .nil y rest) ≠ .nil) (hbefore : inner.slotsBefore = [])
    (hlimit : (inner.fill (.node removed .nil y rest)).height ≤ limit) :
    (outermost .left limit (.ofChild (inner.fill (.node removed .nil y rest)).slot?)).Leads g (.node y) g ∧
      (child .right (.node y)).Leads g (.ofChild rest.slot?) g := by
  let p : Path := inner ++ ⟨.right, c, z, left⟩ :: q
  have hfirst : (inner.fill (.node removed .nil y rest)).extreme .left = some y := by
    rw [Shape.extreme_left, Path.slots_fill, hbefore]
    rfl
  have hdown := (takes_outermost (α := α) (⟨.right, c, z, left⟩ :: q) .left hright hlimit).reads hg hnodup
  rw [hfirst] at hdown
  have hp : p.fill (.node removed .nil y rest) =
      q.fill (.node c left z (inner.fill (.node removed .nil y rest))) := Path.fill_append ..
  have hread := (takes_read (α := α) p .left removed y .nil rest).reads (hp ▸ hg) (hp ▸ hnodup)
  exact ⟨hdown, hread.map Links.right⟩

/-- The node in a slot is taken out of the tree that holds it: the program ends
    without a fault, and leaves the links of the repaired shape. -/
theorem leads_unlink (hg : g.Holds t) (hnodup : t.slots.Nodup) (hr : t.unlink z = .ok r) (hlimit : t.height < limit) :
    ∃ root f, (unlink limit (.node z)).Leads g () ((g.without z t).overlaid root f) ∧
      ((g.without z t).overlaid root f).Holds r.shape := by
  obtain ⟨⟨q, found⟩, hzoom⟩ : ∃ found, t.zoom z [] = some found := by
    cases hzoom : t.zoom z [] with
    | none =>
      rw [Shape.unlink, hzoom] at hr
      cases hr
    | some found => exact ⟨found, rfl⟩
  have hfill : q.fill found = t := Shape.fill_zoom hzoom
  have hslot : found.slot? = some z := Shape.slot?_zoom hzoom
  rw [Shape.unlink, hzoom] at hr
  rw [Wired.without, hzoom]
  obtain _ | ⟨c, left, z', right⟩ := found
  · cases hslot
  obtain rfl : z = z' := (Option.some.inj hslot).symm
  subst hfill
  have hheight : q.length + (Shape.node c left z right).height ≤ (q.fill (.node c left z right)).height :=
    q.length_add_height_le _
  rw [Shape.height] at hheight
  have hread := (takes_read q .left c z left right).reads hg hnodup
  have hleft : (child .left (.node z)).Leads g (.ofChild left.slot?) g := hread.map Links.left
  have hright : (child .right (.node z)).Leads g (.ofChild right.slot?) g := hread.map Links.right
  by_cases hl : left = .nil
  · subst hl
    simp only [ne_eq, not_true_eq_false, false_and, if_false] at hr ⊢
    have hlimit' : q.length + right.height < limit := by omega
    obtain ⟨root, f, hleads, hholds⟩ := leads_takeOut_bypass hg hnodup (.inl ⟨rfl, rfl⟩) hr hlimit'
    exact ⟨root, f, hleft.bind (.ite_pos rfl (hright.bind hleads)), hholds⟩
  by_cases hr' : right = .nil
  · subst hr'
    have hclose : q.closeGap c left = .ok r := by
      cases left with
      | nil => exact absurd rfl hl
      | node => exact hr
    simp only [ne_eq, not_true_eq_false, and_false, if_false]
    have hlimit' : q.length + left.height < limit := by omega
    obtain ⟨root, f, hleads, hholds⟩ := leads_takeOut_bypass hg hnodup (.inr ⟨rfl, rfl⟩) hclose hlimit'
    refine ⟨root, f, hleft.bind (.ite_neg (Shape.ofChild_slot?_ne_nil hl) ?_), hholds⟩
    exact hright.bind (.ite_pos rfl (hleft.bind hleads))
  · simp only [ne_eq, hl, hr', not_false_eq_true, and_self, if_true]
    obtain ⟨inner, removed, y, rest, hzoom', hinner, hbefore⟩ := Shape.zoomExtreme_left hr' []
    rw [List.append_nil] at hzoom'
    have hclose : Path.closeGap (inner ++ ⟨.right, c, y, left⟩ :: q) removed rest = .ok r := by
      cases left with
      | nil => exact absurd rfl hl
      | node =>
        cases right with
        | nil => exact absurd rfl hr'
        | node =>
          simp only [hzoom'] at hr
          exact hr
    subst hinner
    have hdepth := inner.length_add_height_le (.node removed .nil y rest)
    rw [Shape.height] at hdepth
    have hfits : (inner.fill (.node removed .nil y rest)).height ≤ limit := by omega
    obtain ⟨hdown, hheir⟩ := leads_successor hg hnodup hr' hbefore hfits
    have hlimit' : inner.length + 1 + q.length < limit := by omega
    obtain ⟨root, f, hleads, hholds⟩ := leads_takeOut_supersede hg hnodup hl hbefore hclose hlimit'
    refine ⟨root, f, hleft.bind (.ite_neg (Shape.ofChild_slot?_ne_nil hl) ?_), hholds⟩
    exact hright.bind (.ite_neg (Shape.ofChild_slot?_ne_nil hr') (hright.bind (hdown.bind (hheir.bind hleads))))

end Rewiring

end RedBlack
