import RedBlack.Proofs.Shape.Linkage

namespace RedBlack

namespace Shape.Links

/-- What a rotation makes of a line. It raises `y` into the place of `x`; beside
    the lines of these two nodes only that of the node between them and that of
    the parent change. -/
def rewired (side : Side) (x y inner parent : Handle) (l : Links) : Links :=
  if .node l.slot = x then (l.withChild side.opposite inner).withParent y
  else if .node l.slot = y then (l.withParent parent).withChild side x
  else if .node l.slot = inner then l.withParent x
  else if .node l.slot = parent then l.replaceChild x y
  else l

variable {side : Side} {x y inner parent : Handle}

theorem rewired_of_notMem {l : Links} (h : .node l.slot ∉ [x, y, inner, parent]) :
    l.rewired side x y inner parent = l := by
  simp only [List.mem_cons, List.not_mem_nil, or_false, not_or] at h
  obtain ⟨hx, hy, hinner, hparent⟩ := h
  rw [rewired, if_neg hx, if_neg hy, if_neg hinner, if_neg hparent]

@[simp] theorem slot_rewired (l : Links) : (l.rewired side x y inner parent).slot = l.slot := by
  simp only [rewired]
  split_ifs <;> simp

@[simp] theorem color_rewired (l : Links) : (l.rewired side x y inner parent).color = l.color := by
  simp only [rewired]
  split_ifs <;> simp

end Shape.Links

namespace Linkage

/-- Raises the child of a node on the other side into its place, link by link:
    the node takes over the inner child of the raised one, which takes over the
    place below the parent, and at last the node hangs under the raised one.
    `none` if there is no such node or no such child. -/
def rotate (side : Side) (x : Slot) (g : Linkage) : Option Linkage := do
  match (← g.line? x).child side.opposite with
  | .node y =>
    let inner := (← g.line? y).child side
    let g := (g.setChild side.opposite (.node x) inner).setParent inner (.node x)
    let parent := (← g.line? x).parent
    let g := (g.setParent (.node y) parent).replaceChild parent (.node x) (.node y)
    return (g.setChild side (.node y) (.node x)).setParent (.node x) (.node y)
  | _ => none

variable {side : Side} {x y : Slot} {inner parent : Handle} {g : Linkage}

/-- The child that a node takes over is not the node itself, so its parent link
    is read as it was. -/
theorem line?_takeOver (side : Side) {l : Shape.Links} (hx : g.line? x = some l) (hinner : inner ≠ .node x) :
    ((g.setChild side (.node x) inner).setParent inner (.node x)).line? x = some (l.withChild side inner) := by
  have hslot : (Handle.node l.slot) = .node x := by rw [slot_of_line? hx]
  rw [setParent, line?_write inner x _ fun l => l.slot_withParent _, setChild,
    line?_write _ x g fun l => l.slot_withChild side inner, hx, Option.map_some, if_pos hslot, Option.map_some,
    l.slot_withChild, hslot, if_neg hinner.symm]

/-- Where the four nodes are distinct, the writes of a rotation do not get in
    each other's way: each reads the line that the ones before it left as it
    was. -/
theorem rotate_eq {lx ly : Shape.Links} (hx : g.line? x = some lx) (hy : g.line? y = some ly)
    (hchild : lx.child side.opposite = .node y)
    (hdistinct : ([.node x, .node y, ly.child side, lx.parent] : List Handle).Nodup) :
    g.rotate side x = some
      { root := if lx.parent = .header then .node y else g.root
        lines := g.lines.map (Shape.Links.rewired side (.node x) (.node y) (ly.child side) lx.parent) } := by
  generalize hinner : ly.child side = inner at hdistinct
  have hne : inner ≠ .node x := by
    rintro rfl
    simp at hdistinct
  have hread := line?_takeOver side.opposite hx hne
  simp only [rotate, hx, hy, hchild, hinner, Option.bind_eq_bind, Option.bind_some, hread, Shape.Links.parent_withChild]
  generalize lx.parent = parent at hdistinct
  simp only [setParent, setChild, replaceChild, write, List.map_map]
  refine congrArg some (congrArg (Linkage.mk _) (List.map_congr_left fun l _ => ?_))
  simp only [List.nodup_cons, List.mem_cons, List.not_mem_nil, or_false, not_or] at hdistinct
  obtain ⟨⟨hxy, hxinner, hxparent⟩, ⟨hyinner, hyparent⟩, hinnerparent, _⟩ := hdistinct
  simp only [Function.comp, Shape.Links.rewired]
  by_cases hlx : Handle.node l.slot = .node x
  · simp [hlx, hxy, hxinner, hxparent]
  by_cases hly : Handle.node l.slot = .node y
  · simp [hly, Ne.symm hxy, hyinner, hyparent]
  by_cases hlinner : Handle.node l.slot = inner
  · simp [hlinner, hinnerparent, Ne.symm hxinner, Ne.symm hyinner]
  by_cases hlparent : Handle.node l.slot = parent
  · simp [hlparent, Ne.symm hxparent, Ne.symm hyparent, Ne.symm hinnerparent]
  · simp [hlx, hly, hlinner, hlparent]

end Linkage

theorem Shape.slots_branch_perm (side : Side) (color : Color) (slot : Slot) (near far : Shape) :
    (Shape.branch side color slot near far).slots.Perm (slot :: (near.slots ++ far.slots)) := by
  cases side with
  | left => exact List.perm_middle
  | right => exact List.perm_middle.trans (List.perm_append_comm.cons slot)

/-- The slots of a node and its child on the other side, the two nodes before
    their subtrees. -/
theorem Shape.slots_branch_branch_perm (side : Side) (c : Color) (x : Slot) (near : Shape) (d : Color) (y : Slot)
    (inner outer : Shape) : (branch side c x near (branch side d y inner outer)).slots.Perm
      (x :: (near.slots ++ (y :: (inner.slots ++ outer.slots)))) :=
  (slots_branch_perm ..).trans (((slots_branch_perm ..).append_left _).cons x)

theorem Path.slots_fill_cons_perm (f : Frame) (up : Path) (t : Shape) : (fill (f :: up) t).slots.Perm
    (f.slot :: (t.slots ++ (f.sibling.slots ++ (slotsBefore up ++ slotsAfter up)))) := by
  have hclose : (f.close t).slots.Perm (f.slot :: (t.slots ++ f.sibling.slots)) := Shape.slots_branch_perm ..
  refine List.perm_iff_count.mpr fun s => ?_
  simp only [fill_cons, slots_fill, List.count_append, hclose.count_eq, List.count_cons]
  omega

namespace Shape

variable {side : Side} {x y : Slot} {parent : Handle} {c d : Color} {near inner outer : Shape}

@[simp] theorem ofChild_slot?_node (color : Color) (left : Shape) (slot : Slot) (right : Shape) :
    Handle.ofChild (node color left slot right).slot? = .node slot :=
  rfl

theorem mem_slots_of_ofChild {t : Shape} {slot : Slot} (h : .ofChild t.slot? = Handle.node slot) : slot ∈ t.slots := by
  cases hslot : t.slot? with
  | none => simp [hslot, Handle.ofChild] at h
  | some top =>
    obtain rfl : top = slot := by simpa [hslot, Handle.ofChild] using h
    exact mem_slots_of_slot? hslot

/-- Of the lines of the subtree between the two nodes a rotation changes the
    parent of the top node. -/
theorem map_rewired_inner (side : Side) (hnodup : inner.slots.Nodup)
    (hapart : ∀ s ∈ inner.slots, .node s ∉ [.node x, .node y, parent]) :
    (inner.links (.node y)).map (Links.rewired side (.node x) (.node y) (.ofChild inner.slot?) parent) =
      inner.links (.node x) := by
  cases inner with
  | nil => rfl
  | node color left slot right =>
    rw [slots, List.nodup_middle, List.nodup_cons, List.mem_append, not_or] at hnodup
    simp only [slots, List.mem_append, List.mem_cons, List.not_mem_nil, or_false, not_or] at hapart
    have hbelow (l : Links) (hl : l.slot ∈ left.slots ∨ l.slot ∈ right.slots) :
        l.rewired side (.node x) (.node y) (.node slot) parent = l := by
      obtain ⟨hx, hy, hp⟩ := hapart l.slot (by tauto)
      have hne : l.slot ≠ slot := by
        rintro rfl
        tauto
      exact Links.rewired_of_notMem (by simp_all)
    obtain ⟨hx, hy, _⟩ := hapart slot (by tauto)
    have htop (l : Links) (hl : l.slot = slot) :
        l.rewired side (.node x) (.node y) (.node slot) parent = l.withParent (.node x) := by
      simp_all [Links.rewired]
    simp only [slot?, Handle.ofChild, links, List.map_append, List.map_cons]
    rw [map_links_eq_self (fun l hl => hbelow l (.inl hl)), map_links_eq_self (fun l hl => hbelow l (.inr hl)),
      htop _ rfl]
    rfl

/-- What a rotation makes of the lines of a node and its child, wherever these
    hang. -/
theorem map_rewired_branch (hnodup : (branch side c x near (branch side d y inner outer)).slots.Nodup)
    (hparent : ∀ s ∈ (branch side c x near (branch side d y inner outer)).slots, .node s ≠ parent) :
    ((branch side c x near (branch side d y inner outer)).links parent).map
        (Links.rewired side (.node x) (.node y) (.ofChild inner.slot?) parent) =
      (branch side d y (branch side c x near inner) outer).links parent := by
  have hperm := slots_branch_branch_perm side c x near d y inner outer
  have hdistinct := hperm.nodup_iff.mp hnodup
  have hparent (s : Slot) (hs : s ∈ x :: (near.slots ++ (y :: (inner.slots ++ outer.slots)))) : .node s ≠ parent :=
    hparent s (hperm.mem_iff.mpr hs)
  have hoff : ∀ s ∈ near.slots ++ outer.slots, Handle.node s ∉ [.node x, .node y, .ofChild inner.slot?, parent] := by
    intro s hs
    have hinner : .ofChild inner.slot? = Handle.node s → s ∈ inner.slots := mem_slots_of_ofChild
    grind
  have hinner : ∀ s ∈ inner.slots, Handle.node s ∉ [.node x, .node y, parent] := by
    grind
  have hxy : Handle.node y ≠ .node x := by grind
  have hinner' := map_rewired_inner side (by grind) hinner
  have hnear (top : Slot) : (near.links (.node top)).map
      (Links.rewired side (.node x) (.node y) (.ofChild inner.slot?) parent) = near.links (.node top) :=
    map_links_eq_self (fun l hl => Links.rewired_of_notMem (hoff _ (List.mem_append_left _ hl))) _
  have houter (top : Slot) : (outer.links (.node top)).map
      (Links.rewired side (.node x) (.node y) (.ofChild inner.slot?) parent) = outer.links (.node top) :=
    map_links_eq_self (fun l hl => Links.rewired_of_notMem (hoff _ (List.mem_append_right _ hl))) _
  cases side <;>
    simp [branch, links, hnear, hinner', houter, Links.rewired, hxy, Links.withChild, Links.withParent]

/-- But for the parent, the nodes that a rotation writes to lie in the subtree
    that it turns. -/
theorem mem_slots_of_mem_rewired {s : Slot} (h : Handle.node s ∈ [.node x, .node y, .ofChild inner.slot?]) :
    s ∈ (branch side c x near (branch side d y inner outer)).slots := by
  have hinner : Handle.ofChild inner.slot? = .node s → s ∈ inner.slots := mem_slots_of_ofChild
  rw [(slots_branch_branch_perm ..).mem_iff]
  grind

/-- What a rotation below a node makes of the lines of that node and its
    subtrees: in its own line the raised node comes in on the side that led to
    the other one. -/
theorem map_rewired_close {f : Frame} {t u : Shape} {between : Handle} (ht : t.slot? = some x) (hu : u.slot? = some y)
    (hparent : .node f.slot ∉ [.node x, .node y, between]) (hother : Handle.ofChild f.sibling.slot? ≠ .node x)
    (hbelow : (t.links (.node f.slot)).map (Links.rewired side (.node x) (.node y) between (.node f.slot)) =
      u.links (.node f.slot))
    (hbeside : (f.sibling.links (.node f.slot)).map
      (Links.rewired side (.node x) (.node y) between (.node f.slot)) = f.sibling.links (.node f.slot))
    (above : Handle) :
    ((f.close t).links above).map (Links.rewired side (.node x) (.node y) between (.node f.slot)) =
      (f.close u).links above := by
  obtain ⟨fside, color, slot, sibling⟩ := f
  simp only [List.mem_cons, List.not_mem_nil, or_false, not_or] at hparent
  obtain ⟨hx, hy, hbetween⟩ := hparent
  have hline (l : Links) (hl : l.slot = slot) : l.rewired side (.node x) (.node y) between (.node slot) =
      l.replaceChild (.node x) (.node y) := by
    rw [Links.rewired, hl, if_neg hx, if_neg hy, if_neg hbetween, if_pos rfl]
  have htop : Handle.ofChild t.slot? = .node x := by rw [ht]; rfl
  have hnew : Handle.ofChild u.slot? = .node y := by rw [hu]; rfl
  cases fside <;>
    simp [Frame.close, branch, links, hbelow, hbeside, hline, htop, hnew, Links.replaceChild, Links.withChild, hother]

/-- What a rotation makes of all the lines of a shape. The parent of the node
    may hold it on either side, or be the header. -/
theorem map_rewired_fill {p : Path}
    (hnodup : (p.fill (branch side c x near (branch side d y inner outer))).slots.Nodup) :
    ((p.fill (branch side c x near (branch side d y inner outer))).links .header).map
        (Links.rewired side (.node x) (.node y) (.ofChild inner.slot?) p.parent) =
      (p.fill (branch side d y (branch side c x near inner) outer)).links .header := by
  cases p with
  | nil => exact map_rewired_branch hnodup nofun
  | cons f up =>
    have hdistinct := (Path.slots_fill_cons_perm f up _).nodup_iff.mp hnodup
    simp only [List.nodup_cons, List.nodup_append, List.mem_append, not_or] at hdistinct
    obtain ⟨⟨hparent, hsibling, hbefore, hafter⟩, hsub, _, hapart⟩ := hdistinct
    have hoff (l : Links) (hl : l.slot ∈ f.sibling.slots ∨ l.slot ∈ Path.slotsBefore up ∨ l.slot ∈ Path.slotsAfter up) :
        l.rewired side (.node x) (.node y) (.ofChild inner.slot?) (.node f.slot) = l := by
      refine Links.rewired_of_notMem fun h => ?_
      obtain hsub | hslot := List.mem_append.mp
        (show _ ∈ [Handle.node x, .node y, .ofChild inner.slot?] ++ [.node f.slot] from h)
      · exact hapart _ (mem_slots_of_mem_rewired hsub) _ hl rfl
      · obtain hslot : l.slot = f.slot := by simpa using hslot
        rw [hslot] at hl
        tauto
    have hx : x ∈ (branch side c x near (branch side d y inner outer)).slots := mem_slots_of_slot? (slot?_branch ..)
    rw [Path.fill_cons, Path.fill_cons, Path.parent_cons]
    refine Path.map_links_fill up (fun l hl => hoff l (.inr hl)) (by simp [Frame.close]) ?_
    refine map_rewired_close (slot?_branch ..) (slot?_branch ..) ?_ ?_ ?_ ?_ _
    · exact fun h => hparent (mem_slots_of_mem_rewired h)
    · exact fun h => hapart x hx x (.inl (mem_slots_of_ofChild h)) rfl
    · refine map_rewired_branch hsub fun s hs h => hparent ?_
      rwa [← Handle.node.inj h]
    · exact map_links_eq_self (fun l hl => hoff l (.inl hl)) _

theorem exists_node_of_ofChild {t : Shape} (h : .ofChild t.slot? = Handle.node y) :
    ∃ color left right, t = node color left y right := by
  cases t with
  | nil => cases h
  | node color left slot right =>
    obtain rfl : slot = y := Handle.node.inj h
    exact ⟨color, left, right, rfl⟩

/-- A node with a child on the other side, and that child, taken apart as a
    rotation sees them. -/
theorem exists_branch_of_child {t : Shape} {l : Links} (hl : l ∈ t.links .header)
    (hchild : l.child side.opposite = .node y) :
    ∃ (p : Path) (c d : Color) (near inner outer : Shape), l.parent = p.parent ∧
      p.fill (branch side c l.slot near (branch side d y inner outer)) = t := by
  obtain ⟨p, c, left, s, right, rfl, rfl⟩ := exists_lineAt_of_mem hl
  cases side with
  | left =>
    obtain ⟨d, inner, outer, rfl⟩ := exists_node_of_ofChild hchild
    exact ⟨p, c, d, left, inner, outer, rfl, rfl⟩
  | right =>
    obtain ⟨d, outer, inner, rfl⟩ := exists_node_of_ofChild hchild
    exact ⟨p, c, d, right, inner, outer, rfl, rfl⟩

/-- A rotation at a node that is found is one of the subtree under it. -/
theorem rotateAt_fill_branch {p : Path} {slot : Slot} {a b : Shape} (toward : Side)
    (hnodup : (p.fill (branch side c slot a b)).slots.Nodup) :
    (p.fill (branch side c slot a b)).rotateAt toward slot =
      some (((branch side c slot a b).rotate toward).map p.fill) := by
  have hzoom : (p.fill (branch side c slot a b)).zoom slot [] = some (p, branch side c slot a b) := by
    cases side <;> exact Path.zoom_fill_node hnodup
  rw [rotateAt, hzoom]
  rfl

/-- The lines of a node and its child on the other side, as far as a rotation
    reads them. -/
theorem exists_lines_fill_branch (p : Path) (side : Side) (c d : Color) (x y : Slot) (near inner outer : Shape) :
    ∃ lx ly, lx ∈ (p.fill (branch side c x near (branch side d y inner outer))).links .header ∧
      ly ∈ (p.fill (branch side c x near (branch side d y inner outer))).links .header ∧ lx.slot = x ∧ ly.slot = y ∧
      lx.parent = p.parent ∧ lx.child side.opposite = .node y ∧ ly.child side = .ofChild inner.slot? := by
  cases side with
  | left =>
    exact ⟨_, _, Path.lineAt_mem_links p c near x _,
      Path.lineAt_mem_links (⟨.right, c, x, near⟩ :: p) d inner y outer, rfl, rfl, rfl, rfl, rfl⟩
  | right =>
    exact ⟨_, _, Path.lineAt_mem_links p c _ x near,
      Path.lineAt_mem_links (⟨.left, c, x, near⟩ :: p) d outer y inner, rfl, rfl, rfl, rfl, rfl⟩

theorem slot?_fill_congr (p : Path) {t u : Shape} (h : t.slot? = u.slot?) : (p.fill t).slot? = (p.fill u).slot? := by
  induction p generalizing t u with
  | nil => exact h
  | cons f up ih => exact ih (by simp [Frame.close])

/-- A rotation leads the link to the root to the raised node where that is the
    root now, and else leaves it alone. -/
theorem root_rotated (p : Path) : (p.fill (branch side d y (branch side c x near inner) outer)).linkage.root =
    if p.parent = .header then .node y
    else (p.fill (branch side c x near (branch side d y inner outer))).linkage.root := by
  cases p with
  | nil => simp [linkage, Path.parent, Handle.ofChild]
  | cons f up =>
    rw [Path.parent_cons, if_neg (by simp)]
    exact congrArg Handle.ofChild (slot?_fill_congr up (by simp [Frame.close]))

theorem ofChild_ne_header (t : Shape) : Handle.ofChild t.slot? ≠ .header := by
  cases t <;> nofun

/-- The four nodes that a rotation writes to are distinct, as far as they are
    there. -/
theorem rewired_nodup {p : Path} (hnodup : (p.fill (branch side c x near (branch side d y inner outer))).slots.Nodup) :
    ([.node x, .node y, .ofChild inner.slot?, p.parent] : List Handle).Nodup := by
  have hparent : p.parent ∉ [.node x, .node y, Handle.ofChild inner.slot?] := by
    cases p with
    | nil => simp [Path.parent, (ofChild_ne_header inner).symm]
    | cons f up =>
      have hdistinct := (Path.slots_fill_cons_perm f up _).nodup_iff.mp hnodup
      intro h
      exact (List.nodup_cons.mp hdistinct).1 (List.mem_append_left _ (mem_slots_of_mem_rewired h))
  rw [Path.slots_fill] at hnodup
  have hsub := (List.nodup_append.mp (List.nodup_append.mp hnodup).1).2.1
  have hdistinct := (slots_branch_branch_perm side c x near d y inner outer).nodup_iff.mp hsub
  have hx : Handle.ofChild inner.slot? = .node x → x ∈ inner.slots := mem_slots_of_ofChild
  have hy : Handle.ofChild inner.slot? = .node y → y ∈ inner.slots := mem_slots_of_ofChild
  grind

/-- What the writes of a rotation make of the links of a shape are the links of
    the turned shape. -/
theorem linkage_rotate {p : Path} (hnodup : (p.fill (branch side c x near (branch side d y inner outer))).slots.Nodup) :
    (p.fill (branch side c x near (branch side d y inner outer))).linkage.rotate side x =
      some (p.fill (branch side d y (branch side c x near inner) outer)).linkage := by
  obtain ⟨lx, ly, hlx, hly, hx, hy, hparent, hchild, hinner⟩ := exists_lines_fill_branch p side c d x y near inner outer
  have hagrees := linkage_agrees hnodup
  have hxline := hagrees.line?_eq hlx
  have hyline := hagrees.line?_eq hly
  rw [hx] at hxline
  rw [hy] at hyline
  rw [Linkage.rotate_eq hxline hyline hchild (by rw [hinner, hparent]; exact rewired_nodup hnodup), hinner, hparent,
    ← root_rotated]
  exact congrArg some (congrArg (Linkage.mk _) (map_rewired_fill hnodup))

/-- What a rotation makes of a shape, given the lines of the node and of the
    child that it raises. The rotation at the raised node to the other side,
    from where the raised node is the one to be turned down, takes it back. -/
theorem exists_rotated {t : Shape} {lx ly : Links} (hnodup : t.slots.Nodup) (hlx : lx ∈ t.links .header)
    (hly : ly ∈ t.links .header) (hchild : lx.child side.opposite = .node ly.slot) :
    ∃ u, t.rotateAt side lx.slot = some (.ok u) ∧ u.rotateAt side.opposite ly.slot = some (.ok t) ∧
      t.linkage.rotate side lx.slot = some u.linkage ∧ u.linkage.rotate side.opposite ly.slot = some t.linkage ∧
      u.slots = t.slots ∧
      u.links .header =
        (t.links .header).map (Links.rewired side (.node lx.slot) (.node ly.slot) (ly.child side) lx.parent) := by
  obtain ⟨p, c, d, near, inner, outer, hparent, rfl⟩ := exists_branch_of_child hlx hchild
  obtain ⟨_, m, _, hm, _, hslot, _, _, hinner⟩ := exists_lines_fill_branch p side c d lx.slot ly.slot near inner outer
  obtain rfl := eq_of_slot_eq hnodup hly hm hslot.symm
  let u := p.fill (branch side d ly.slot (branch side c lx.slot near inner) outer)
  have hslots : u.slots = (p.fill (branch side c lx.slot near (branch side d ly.slot inner outer))).slots := by
    cases side <;> simp [u, Path.slots_fill, branch, slots]
  have hu : u.slots.Nodup := by rwa [hslots]
  refine ⟨u, ?_, ?_, linkage_rotate hnodup, ?_, hslots, ?_⟩
  · rw [rotateAt_fill_branch side hnodup, rotate_branch]
    rfl
  · rw [rotateAt_fill_branch side.opposite hu, rotate_opposite_branch]
    rfl
  · have hsame : u = p.fill (branch side.opposite d ly.slot outer (branch side.opposite c lx.slot inner near)) := by
      rw [branch_opposite, branch_opposite]
    rw [hsame] at hu ⊢
    rw [linkage_rotate hu, branch_opposite, branch_opposite]
  · rw [hparent, hinner]
    exact (map_rewired_fill hnodup).symm

end Shape

end RedBlack
