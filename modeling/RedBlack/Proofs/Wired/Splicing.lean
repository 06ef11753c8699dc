import RedBlack.Proofs.Shape.Pruning
import RedBlack.Proofs.Wired.Focus

namespace RedBlack

open Shape (Links)

namespace Shape

variable {side : Side} {color : Color} {slot : Slot} {near far t : Shape}

theorem extreme_branch : (branch side color slot near far).extreme side = (near.extreme side).or (some slot) := by
  cases side <;> rfl

theorem exists_extreme (side : Side) (h : t ≠ nil) : ∃ slot, t.extreme side = some slot := by
  obtain rfl | ⟨c, s, near, far, rfl⟩ := eq_nil_or_branch side t
  · exact absurd rfl h
  · rw [extreme_branch]
    cases near.extreme side with
    | none => exact ⟨s, rfl⟩
    | some slot => exact ⟨slot, rfl⟩

theorem ofChild_slot?_ne_nil (h : t ≠ nil) : Handle.ofChild t.slot? ≠ .nil := by
  cases t with
  | nil => exact absurd rfl h
  | node => nofun

theorem height_lt_branch : near.height < (branch side color slot near far).height := by
  cases side <;> simp only [branch, height] <;> omega

end Shape

theorem Path.ofEnd_extremeWithout_nil (side : Side) (q : Path) : .ofEnd (q.extremeWithout side .nil) = q.parent := by
  cases q <;> rfl

theorem Path.ofEnd_extremeWithout {x : Shape} (side : Side) (q : Path) (hx : x ≠ .nil) :
    .ofEnd (q.extremeWithout side x) = Handle.ofChild (x.extreme side) := by
  obtain ⟨slot, hslot⟩ := Shape.exists_extreme side hx
  rw [extremeWithout, hslot]
  rfl

/-- A node with the given subtrees has no other subtree than this one, which may
    be missing itself. -/
def Shape.Only (left right x : Shape) : Prop :=
  left = .nil ∧ x = right ∨ right = .nil ∧ x = left

theorem Shape.Only.apart {q : Path} {c : Color} {z : Slot} {left right x : Shape} (h : Only left right x)
    (hnodup : (q.fill (node c left z right)).slots.Nodup) :
    z ∉ x.slots ∧ z ∉ q.slots ∧ q.slots.Disjoint x.slots ∧ x.slots.Nodup ∧ q.slots.Nodup := by
  have hbranch : (q.fill (branch .left c z left right)).slots.Nodup := hnodup
  obtain ⟨hzleft, hzright, hzq, _, hleftq, hrightq, hleft, hright, hq⟩ := apart_of_nodup_fill hbranch
  obtain ⟨rfl, rfl⟩ | ⟨rfl, rfl⟩ := h
  · exact ⟨hzright, hzq, List.disjoint_symm hrightq, hright, hq⟩
  · exact ⟨hzleft, hzq, List.disjoint_symm hleftq, hleft, hq⟩

theorem Shape.Only.mem_slots {q : Path} {c : Color} {z slot : Slot} {left right x : Shape} (h : Only left right x) :
    slot ∈ (q.fill (node c left z right)).slots ↔ slot = z ∨ slot ∈ x.slots ∨ slot ∈ q.slots := by
  rw [(Path.slots_fill_perm q _).mem_iff, List.mem_append,
    show node c left z right = branch .left c z left right from rfl, mem_slots_branch]
  obtain ⟨rfl, rfl⟩ | ⟨rfl, rfl⟩ := h <;> simp [slots, or_assoc]

namespace Overlay

variable {f : Overlay} {q : Path} {c : Color} {z : Slot} {left right x : Shape}

theorem Shows.only (h : f.Shows .header (q.fill (.node c left z right))) (hone : Shape.Only left right x) :
    f.Surrounds q (.node z) ∧ (∀ l, f z l = ⟨z, c, q.parent, .ofChild left.slot?, .ofChild right.slot?⟩) ∧
      f.Shows (.node z) x := by
  obtain ⟨hsurrounds, hshows⟩ := (shows_fill q _).mp h
  obtain ⟨hline, hleft, hright⟩ := shows_node.mp hshows
  obtain ⟨rfl, rfl⟩ | ⟨rfl, rfl⟩ := hone
  · exact ⟨hsurrounds, hline, hright⟩
  · exact ⟨hsurrounds, hline, hleft⟩

/-- The writes that put the only child of a node in the place of that. -/
def bypass (q : Path) (x : Shape) (f : Overlay) : Overlay :=
  (f.reparent x q.parent).rehang q (.ofChild x.slot?)

theorem Shows.bypass {parent : Handle} (hq : f.Surrounds q (.node z)) (hx : f.Shows parent x) (hnodup : q.slots.Nodup)
    (hnodup' : x.slots.Nodup) (hapart : q.slots.Disjoint x.slots) : (f.bypass q x).Shows .header (q.fill x) := by
  rw [shows_fill]
  exact ⟨(hq.reparent hapart).rehang hnodup, (hx.reparent hnodup').rehang fun slot hslot hmem => hapart hmem hslot⟩

end Overlay

/-- How the parts of a node and of its successor lie apart: the left subtree of
    the node, what surrounds the successor below the node, the only subtree of
    the successor, and what surrounds the node. -/
structure Shape.Succession (q inner : Path) (z y : Slot) (left rest : Shape) : Prop where
  slots : z ≠ y
  node : z ∉ left.slots ∧ z ∉ rest.slots ∧ z ∉ inner.slots ∧ z ∉ q.slots
  heir : y ∉ left.slots ∧ y ∉ rest.slots ∧ y ∉ inner.slots ∧ y ∉ q.slots
  nodup : left.slots.Nodup ∧ rest.slots.Nodup ∧ inner.slots.Nodup ∧ q.slots.Nodup
  left : left.slots.Disjoint rest.slots ∧ left.slots.Disjoint inner.slots ∧ left.slots.Disjoint q.slots
  rest : rest.slots.Disjoint inner.slots ∧ rest.slots.Disjoint q.slots ∧ inner.slots.Disjoint q.slots

section Succession

variable {q inner : Path} {z y : Slot} {c removed : Color} {left rest below : Shape}

theorem Shape.succession
    (h : (q.fill (branch .left c z left (inner.fill (branch .left removed y nil rest)))).slots.Nodup) :
    Succession q inner z y left rest := by
  obtain ⟨hzleft, hzright, hzq, hsides, hleftq, hrightq, hleft, hright, hq⟩ := apart_of_nodup_fill h
  obtain ⟨_, hyrest, hyinner, _, _, hrestinner, _, hrest, hinner⟩ := apart_of_nodup_fill hright
  have hmem (slot : Slot) (hslot : slot = y ∨ slot ∈ rest.slots ∨ slot ∈ inner.slots) :
      slot ∈ (inner.fill (branch .left removed y nil rest)).slots := by
    rw [(Path.slots_fill_perm inner _).mem_iff, List.mem_append, mem_slots_branch]
    tauto
  refine ⟨?_, ⟨hzleft, ?_, ?_, hzq⟩, ⟨?_, hyrest, hyinner, ?_⟩, ⟨hleft, hrest, hinner, hq⟩, ⟨?_, ?_, hleftq⟩,
    ⟨hrestinner, ?_, ?_⟩⟩
  · exact fun heq => hzright (hmem z (.inl heq))
  · exact fun hz => hzright (hmem z (.inr (.inl hz)))
  · exact fun hz => hzright (hmem z (.inr (.inr hz)))
  · exact fun hy => hsides hy (hmem y (.inl rfl))
  · exact hrightq (hmem y (.inl rfl))
  · exact fun slot hslot hmem' => hsides hslot (hmem slot (.inr (.inl hmem')))
  · exact fun slot hslot hmem' => hsides hslot (hmem slot (.inr (.inr hmem')))
  · exact fun slot hslot => hrightq (hmem slot (.inr (.inl hslot)))
  · exact fun slot hslot => hrightq (hmem slot (.inr (.inr hslot)))

namespace Shape.Succession

variable {slot : Slot}

theorem mem_below : slot ∈ (inner.fill rest).slots ↔ slot ∈ rest.slots ∨ slot ∈ inner.slots := by
  rw [(Path.slots_fill_perm inner rest).mem_iff, List.mem_append]

theorem mem_whole (inner : Path) :
    slot ∈ (q.fill (branch .left c z left (inner.fill (branch .left removed y nil rest)))).slots ↔
      slot = z ∨ slot ∈ left.slots ∨ slot = y ∨ slot ∈ (inner.fill rest).slots ∨ slot ∈ q.slots := by
  rw [(Path.slots_fill_perm q _).mem_iff, List.mem_append, mem_slots_branch, (Path.slots_fill_perm inner _).mem_iff,
    List.mem_append, mem_slots_branch, mem_below]
  simp only [Shape.slots, List.not_mem_nil, false_or, or_assoc]

theorem notMem_below (h : Succession q inner z y left rest) :
    z ∉ (inner.fill rest).slots ∧ y ∉ (inner.fill rest).slots := by
  rw [mem_below, mem_below, not_or, not_or]
  exact ⟨⟨h.node.2.1, h.node.2.2.1⟩, h.heir.2.1, h.heir.2.2.1⟩

/-- What is left below the node once its successor is gone from there lies apart
    from all the rest. -/
theorem apart_below (h : Succession q inner z y left rest) :
    (inner.fill rest).slots.Nodup ∧ left.slots.Disjoint (inner.fill rest).slots ∧
      (inner.fill rest).slots.Disjoint q.slots := by
  obtain ⟨_, _, _, ⟨_, hrest, hinner, _⟩, ⟨hleftrest, hleftinner, _⟩, ⟨hrestinner, hrestq, hinnerq⟩⟩ := h
  refine ⟨Path.nodup_slots_fill.mpr ⟨hrest, hinner, hrestinner⟩, fun slot hslot hbelow => ?_,
    fun slot hbelow hslot => ?_⟩
  · exact (mem_below.mp hbelow).elim (fun h => hleftrest hslot h) fun h => hleftinner hslot h
  · exact (mem_below.mp hbelow).elim (fun h => hrestq h hslot) fun h => hinnerq h hslot

theorem nodup_fill (h : Succession q inner z y left rest) :
    (q.fill (branch .left c y left (inner.fill rest))).slots.Nodup := by
  obtain ⟨hbelow, hleftbelow, hbelowq⟩ := h.apart_below
  refine Path.nodup_slots_fill.mpr ⟨?_, h.nodup.2.2.2, fun slot hslot hmem => ?_⟩
  · exact nodup_slots_branch.mpr ⟨h.heir.1, h.notMem_below.2, h.nodup.1, hbelow, hleftbelow⟩
  · obtain rfl | hslot | hslot := mem_slots_branch.mp hslot
    · exact h.heir.2.2.2 hmem
    · exact h.left.2.2 hslot hmem
    · exact hbelowq hslot hmem

end Shape.Succession

namespace Overlay

variable {f g : Overlay} {slot other : Slot} {t : Shape} {parent top base : Handle} {change : Links → Links} {l : Links}

/-- The writes by which a node takes over the place and the colour of another
    one. -/
def takeOver (q : Path) (z y : Slot) (c removed : Color) (f : Overlay) : Overlay :=
  (((f.rehang q (.node y)).touch y (Links.withParent q.parent)).touch y fun l => { l with color := c }).touch z
    fun l => { l with color := removed }

/-- A node that has taken over both subtrees of another one takes over its
    place. -/
theorem Shows.takeOver (hq : f.Surrounds q (.node z)) (hleft : f.Shows (.node y) left)
    (hbelow : f.Shows (.node y) below)
    (hy : ∀ l, f y l = .facing .left y removed base (.ofChild left.slot?) (.ofChild below.slot?)) (hzy : z ≠ y)
    (hz : z ∉ left.slots ∧ z ∉ below.slots ∧ z ∉ q.slots) (hy' : y ∉ left.slots ∧ y ∉ below.slots ∧ y ∉ q.slots)
    (hnodup : q.slots.Nodup) (hleftq : left.slots.Disjoint q.slots) (hbelowq : below.slots.Disjoint q.slots) :
    (f.takeOver q z y c removed).Shows .header (q.fill (.branch .left c y left below)) := by
  rw [shows_fill, shows_branch, Shape.ofChild_slot?_branch]
  refine ⟨?_, fun l => ?_, ?_, ?_⟩
  · exact (((hq.rehang hnodup).touch hy'.2.2).touch hy'.2.2).touch hz.2.2
  · rw [Overlay.takeOver, touch_of_ne hzy.symm, touch_self, touch_self, rehang_of_notMem hy'.2.2, hy,
      Links.withParent_facing, Links.recolor_facing]
  · exact (((hleft.rehang fun slot hslot => hleftq hslot).touch hy'.1).touch hy'.1).touch hz.1
  · exact (((hbelow.rehang fun slot hslot => hbelowq hslot).touch hy'.2.1).touch hy'.2.1).touch hz.2.1

/-- The writes by which a node takes over the left subtree of another one. -/
def adoptLeft (y : Slot) (left : Shape) (f : Overlay) : Overlay :=
  (f.reparent left (.node y)).touch y (Links.withChild .left (.ofChild left.slot?))

/-- The writes by which it takes over the right one. -/
def adoptRight (y : Slot) (below : Shape) (f : Overlay) : Overlay :=
  (f.touch y (Links.withChild .right (.ofChild below.slot?))).reparent below (.node y)

theorem adoptLeft_of_notMem (hslot : slot ∉ left.slots) (hy : slot ≠ y) : f.adoptLeft y left slot l = f slot l :=
  (touch_of_ne hy).trans (reparent_of_notMem hslot)

theorem adoptRight_of_notMem (hslot : slot ∉ below.slots) (hy : slot ≠ y) : f.adoptRight y below slot l = f slot l :=
  (reparent_of_notMem hslot).trans (touch_of_ne hy)

theorem bypass_of_notMem {x : Shape} (hx : slot ∉ x.slots) (hq : slot ∉ q.slots) : f.bypass q x slot l = f slot l :=
  (rehang_of_notMem hq).trans (reparent_of_notMem hx)

/-- What the writes make of one line is made of that line alone. -/
theorem bypass_congr {x : Shape} (h : f slot l = g slot l) : f.bypass q x slot l = g.bypass q x slot l := by
  have htouch {f g : Overlay} {other : Slot} {change : Links → Links} (h : f slot l = g slot l) :
      f.touch other change slot l = g.touch other change slot l := by
    rw [touch, touch, h]
  have hreparent : f.reparent x q.parent slot l = g.reparent x q.parent slot l := by
    unfold reparent
    cases x.slot? with
    | none => exact h
    | some top => exact htouch h
  cases q with
  | nil => exact hreparent
  | cons frame up => exact htouch hreparent

theorem adoptLeft_heir (hy : y ∉ left.slots)
    (h : ∀ l, f y l = .facing .left y removed base .nil (.ofChild rest.slot?)) (l : Links) :
    f.adoptLeft y left y l = .facing .left y removed base (.ofChild left.slot?) (.ofChild rest.slot?) := by
  rw [adoptLeft, touch_self, reparent_of_notMem hy, h, Links.withChild_facing]

theorem adopt_heir (hs : Shape.Succession q inner z y left rest)
    (h : ∀ l, f y l = .facing .left y removed base .nil (.ofChild rest.slot?)) (l : Links) :
    ((f.adoptLeft y left).bypass inner rest).adoptRight y (inner.fill rest) y l =
      .facing .left y removed base (.ofChild left.slot?) (.ofChild (inner.fill rest).slot?) := by
  rw [adoptRight, reparent_of_notMem hs.notMem_below.2, touch_self, bypass_of_notMem hs.heir.2.1 hs.heir.2.2.1,
    adoptLeft_heir hs.heir.1 h]
  rfl

theorem Surrounds.adopt (h : f.Surrounds q top) (hs : Shape.Succession q inner z y left rest) :
    (((f.adoptLeft y left).bypass inner rest).adoptRight y (inner.fill rest)).Surrounds q top := by
  obtain ⟨_, _, ⟨_, _, _, hyq⟩, _, ⟨_, _, hleftq⟩, ⟨_, hrestq, hinnerq⟩⟩ := hs
  refine h.congr fun slot hslot l => ?_
  rw [adoptRight_of_notMem, bypass_of_notMem, adoptLeft_of_notMem]
  · exact fun hslot' => hleftq hslot' hslot
  · exact ne_of_mem_of_not_mem hslot hyq
  · exact fun hslot' => hrestq hslot' hslot
  · exact fun hslot' => hinnerq hslot' hslot
  · rw [(Path.slots_fill_perm inner rest).mem_iff, List.mem_append, not_or]
    exact ⟨fun hslot' => hrestq hslot' hslot, fun hslot' => hinnerq hslot' hslot⟩
  · exact ne_of_mem_of_not_mem hslot hyq

/-- The successor right below the node takes over the left subtree of that, and
    keeps its own right one. -/
theorem Shows.supersede_near (h : f.Shows .header (q.fill (.branch .left c z left (.branch .left removed y .nil rest))))
    (hnodup : (q.fill (.branch .left c z left (.branch .left removed y .nil rest))).slots.Nodup) :
    ((f.adoptLeft y left).takeOver q z y c removed).Shows .header (q.fill (.branch .left c y left rest)) := by
  obtain ⟨hzy, ⟨hzleft, hzrest, _, hzq⟩, ⟨hyleft, hyrest, _, hyq⟩, ⟨hleft, _, _, hq⟩, ⟨hleftrest, _, hleftq⟩,
    ⟨_, hrestq, _⟩⟩ := (Shape.succession hnodup : Shape.Succession q [] z y left rest)
  obtain ⟨hsurrounds, hshows⟩ := (shows_fill q _).mp h
  rw [Shape.ofChild_slot?_branch] at hsurrounds
  obtain ⟨_, hshowsleft, hshows⟩ := shows_branch.mp hshows
  obtain ⟨hline, _, hshowsrest⟩ := shows_branch.mp hshows
  refine .takeOver ?_ ?_ ?_ (adoptLeft_heir hyleft hline) hzy ⟨hzleft, hzrest, hzq⟩ ⟨hyleft, hyrest, hyq⟩ hq hleftq hrestq
  · exact (hsurrounds.reparent fun slot hslot hmem => hleftq hmem hslot).touch hyq
  · exact (hshowsleft.reparent hleft).touch hyleft
  · exact (hshowsrest.reparent_apart fun slot hslot hmem => hleftrest hmem hslot).touch hyrest

/-- The successor farther down leaves its only subtree in its place, and takes
    over both subtrees of the node. -/
theorem Shows.supersede_deep {frame : Frame} {up : Path} (hinner : inner = frame :: up)
    (h : f.Shows .header (q.fill (.branch .left c z left (inner.fill (.branch .left removed y .nil rest)))))
    (hnodup : (q.fill (.branch .left c z left (inner.fill (.branch .left removed y .nil rest)))).slots.Nodup) :
    ((((f.adoptLeft y left).bypass inner rest).adoptRight y (inner.fill rest)).takeOver q z y c removed).Shows .header
      (q.fill (.branch .left c y left (inner.fill rest))) := by
  have hs := Shape.succession hnodup
  obtain ⟨hzleft, _, _, hzq⟩ := hs.node
  obtain ⟨hyleft, _, _, hyq⟩ := hs.heir
  obtain ⟨hleftrest, hleftinner, hleftq⟩ := hs.left
  obtain ⟨hz, hy⟩ := hs.notMem_below
  obtain ⟨hbelow, hleftbelow, hbelowq⟩ := hs.apart_below
  obtain ⟨hsurrounds, hshows⟩ := (shows_fill q _).mp h
  rw [Shape.ofChild_slot?_branch] at hsurrounds
  obtain ⟨_, hshowsleft, _⟩ := shows_branch.mp hshows
  let p : Path := inner ++ ⟨.right, c, z, left⟩ :: q
  have hp : p.fill (.branch .left removed y .nil rest) =
      q.fill (.branch .left c z left (inner.fill (.branch .left removed y .nil rest))) := Path.fill_append ..
  have hp' : p.fill rest = q.fill (.branch .left c z left (inner.fill rest)) := Path.fill_append ..
  rw [← hp] at h hnodup
  obtain ⟨hsurrounds', hshows'⟩ := (shows_fill p _).mp h
  rw [Shape.ofChild_slot?_branch] at hsurrounds'
  obtain ⟨hline, _, hshowsrest⟩ := shows_branch.mp hshows'
  obtain ⟨_, _, _, _, _, hrestp, _, _, hpnodup⟩ := Shape.apart_of_nodup_fill hnodup
  have hlifted : (f.bypass inner rest).Shows (.node z) (inner.fill rest) := by
    have hwhole := Shows.bypass hsurrounds' hshowsrest hpnodup hs.nodup.2.1 (List.disjoint_symm hrestp)
    rw [hp', shows_fill, shows_branch] at hwhole
    subst hinner
    exact hwhole.2.2.2
  have hbetween : ((f.adoptLeft y left).bypass inner rest).Shows (.node z) (inner.fill rest) := by
    refine hlifted.congr fun slot hslot l => bypass_congr (adoptLeft_of_notMem ?_ ?_)
    · exact fun hslot' => hleftbelow hslot' hslot
    · exact ne_of_mem_of_not_mem hslot hy
  refine .takeOver ?_ ?_ ?_ (adopt_heir hs hline) hs.slots ⟨hzleft, hz, hzq⟩ ⟨hyleft, hy, hyq⟩ hs.nodup.2.2.2 hleftq hbelowq
  · exact hsurrounds.adopt hs
  · have hadopted : (f.adoptLeft y left).Shows (.node y) left := (hshowsleft.reparent hs.nodup.1).touch hyleft
    refine hadopted.congr fun slot hslot l => ?_
    rw [adoptRight_of_notMem, bypass_of_notMem]
    · exact fun hslot' => hleftrest hslot hslot'
    · exact fun hslot' => hleftinner hslot hslot'
    · exact fun hslot' => hleftbelow hslot hslot'
    · exact ne_of_mem_of_not_mem hslot hyleft
  · exact (hbetween.touch hy).reparent hbelow

end Overlay

end Succession

end RedBlack
