import RedBlack.Proofs.Wired.Rotation

namespace RedBlack

namespace Rewiring

variable {α : Type}

/-- A round on a red node `x` whose red parent `xp` is the left child of the
    grandparent `xpp`. It gives the node to go on with, if there is still
    something to mend. -/
def redRoundLeft (x xp xpp : Handle) : Rewiring α (Option Handle) := do
  let uncle ← child .right xpp
  if ← isRed uncle then
    setColor .black xp
    setColor .black uncle
    setColor .red xpp
    return some xpp
  else
    let x ←
      if x = (← child .right xp) then do
        rotateLeft xp
        pure xp
      else pure x
    let xp ← parent x
    let xpp ← parent xp
    setColor .black xp
    setColor .red xpp
    rotateRight xpp
    return none

/-- A round on a red node whose red parent is the right child of the
    grandparent. -/
def redRoundRight (x xp xpp : Handle) : Rewiring α (Option Handle) := do
  let uncle ← child .left xpp
  if ← isRed uncle then
    setColor .black xp
    setColor .black uncle
    setColor .red xpp
    return some xpp
  else
    let x ←
      if x = (← child .left xp) then do
        rotateRight xp
        pure xp
      else pure x
    let xp ← parent x
    let xpp ← parent xp
    setColor .black xp
    setColor .red xpp
    rotateLeft xpp
    return none

/-- The loop over a red node with a red parent. The side of the parent is told
    by the left link of the grandparent. -/
def climbRed : Nat → Handle → Rewiring α Unit
  | 0, _ => failure
  | limit + 1, x => do
    if x = (← root) then return ()
    else
      let xp ← parent x
      if ← isRed xp then
        let xpp ← parent xp
        match ← bySide xp xpp (redRoundLeft x xp xpp) (redRoundRight x xp xpp) with
        | some x => climbRed limit x
        | none => return ()
      else return ()

/-- Mends the colours above a new red node. The root comes out black. -/
def insertFixup (limit : Nat) (x : Handle) : Rewiring α Unit := do
  climbRed limit x
  setColor .black (← root)

/-- The last steps of a round beside a black uncle: the grandparent of `x` is
    turned down over the parent. -/
def turnOver (side : Side) (x : Handle) : Rewiring α (Option Handle) := do
  let xp ← parent x
  let xpp ← parent xp
  setColor .black xp
  setColor .red xpp
  rotate side.opposite xpp
  return none

def redRound : Side → Handle → Handle → Handle → Rewiring α (Option Handle)
  | .left => redRoundLeft
  | .right => redRoundRight

/-- The two rounds are written alike, with the sides exchanged. -/
theorem redRound_eq (side : Side) (x xp xpp : Handle) : (redRound side x xp xpp : Rewiring α (Option Handle)) = (do
    let uncle ← child side.opposite xpp
    if ← isRed uncle then
      setColor .black xp
      setColor .black uncle
      setColor .red xpp
      return some xpp
    else
      let x ←
        if x = (← child side.opposite xp) then do
          rotate side xp
          pure xp
        else pure x
      turnOver side x) := by
  cases side <;> rfl

section Rounds

variable {up : Path} {side : Side} {c d : Color} {g s : Slot} {x near far sibling : Shape}

/-- With the node `x` on the outer side of its parent the grandparent is turned
    down over that. -/
theorem takes_turnOver (up : Path) (side : Side) (c d : Color) (g s : Slot) (far sibling : Shape) (hx : x ≠ .nil) :
    (turnOver side (.ofChild x.slot?) : Rewiring α (Option Handle)).Takes
      (up.fill (.branch side d g (.branch side c s x far) sibling)) none
      (up.fill (.branch side .black s x (.branch side .red g far sibling))) := by
  refine (takes_parentOf (⟨side, c, s, far⟩ :: ⟨side, d, g, sibling⟩ :: up) hx).bind ?_
  refine (takes_parent (⟨side, d, g, sibling⟩ :: up) side c s x far).bind ?_
  refine (takes_setColor (⟨side, d, g, sibling⟩ :: up) side c s x far .black).bind ?_
  refine (takes_setColor up side d g (.branch side .black s x far) sibling .red).bind ?_
  exact (takes_rotate_opposite up side .red .black g s x far sibling).bind (.pure _ _)

/-- A red uncle turns black together with the parent, and the defect moves to
    the grandparent. -/
theorem takes_redRound_of_red (up : Path) (side ps : Side) (xh : Handle) (c d : Color) (g s : Slot) (near far : Shape)
    (hred : sibling.isRed = true) :
    (redRound side xh (.node s) (.node g) : Rewiring α (Option Handle)).Takes
      (up.fill (.branch side d g (.branch ps c s near far) sibling)) (some (.node g))
      (up.fill (.branch side .red g (.branch ps .black s near far) (sibling.paint .black))) := by
  rw [redRound_eq]
  refine (takes_child_opposite up side d g (.branch ps c s near far) sibling).bind ?_
  refine (takes_isRed_far up side d g (.branch ps c s near far) sibling).bind (.ite_pos hred ?_)
  refine (takes_setColor (⟨side, d, g, sibling⟩ :: up) ps c s near far .black).bind ?_
  refine (takes_paint_far up side d g (.branch ps .black s near far) .black (Shape.ne_nil_of_red hred)).bind ?_
  exact (takes_setColor up side d g (.branch ps .black s near far) (sibling.paint .black) .red).bind (.pure _ _)

/-- Beside a black uncle a node on the outer side is raised together with its
    parent. -/
theorem takes_redRound_outer (up : Path) (side : Side) (c d : Color) (g s : Slot) (far : Shape)
    (hblack : ¬ sibling.isRed = true) (hx : x ≠ .nil) (hfar : Handle.ofChild x.slot? ≠ .ofChild far.slot?) :
    (redRound side (.ofChild x.slot?) (.node s) (.node g) : Rewiring α (Option Handle)).Takes
      (up.fill (.branch side d g (.branch side c s x far) sibling)) none
      (up.fill (.branch side .black s x (.branch side .red g far sibling))) := by
  rw [redRound_eq]
  refine (takes_child_opposite up side d g (.branch side c s x far) sibling).bind ?_
  refine (takes_isRed_far up side d g (.branch side c s x far) sibling).bind (.ite_neg hblack ?_)
  refine (takes_child_opposite (⟨side, d, g, sibling⟩ :: up) side c s x far).bind ?_
  exact .ite_neg hfar ((Takes.pure _ _).bind (takes_turnOver up side c d g s far sibling hx))

/-- A node on the inner side is first raised over its parent. -/
theorem takes_redRound_inner (up : Path) (side : Side) (b c d : Color) (g s r : Slot) (near inner outer : Shape)
    (hblack : ¬ sibling.isRed = true) :
    (redRound side (.node r) (.node s) (.node g) : Rewiring α (Option Handle)).Takes
      (up.fill (.branch side d g (.branch side c s near (.branch side b r inner outer)) sibling)) none
      (up.fill (.branch side .black r (.branch side c s near inner) (.branch side .red g outer sibling))) := by
  rw [redRound_eq]
  refine (takes_child_opposite up side d g (.branch side c s near (.branch side b r inner outer)) sibling).bind ?_
  refine (takes_isRed_far up side d g _ sibling).bind (.ite_neg hblack ?_)
  refine (takes_child_opposite (⟨side, d, g, sibling⟩ :: up) side c s near (.branch side b r inner outer)).bind ?_
  have hturn := takes_turnOver (α := α) up side b d g r outer sibling (x := .branch side c s near inner)
    Shape.branch_ne_nil
  rw [Shape.ofChild_slot?_branch] at hturn
  refine .ite_pos (by rw [Shape.ofChild_slot?_branch]) ?_
  exact (takes_rotate (⟨side, d, g, sibling⟩ :: up) side c b s r near inner outer).bind ((Takes.pure _ _).bind hturn)

theorem takes_climbRed_of_black (limit : Nat) {f : Frame} (hblack : f.color = .black) (hx : x ≠ .nil)
    (hnodup : (Path.fill (f :: up) x).slots.Nodup) :
    (climbRed (limit + 1) (.ofChild x.slot?) : Rewiring α Unit).Takes (Path.fill (f :: up) x) ()
      (Path.fill (f :: up) x) := by
  refine (takes_root _).bind (.ite_neg (Shape.ofChild_ne_root hnodup) ?_)
  refine (takes_parentOf (f :: up) hx).bind ?_
  exact (takes_isRed_self up f.side f.color f.slot x f.sibling).bind (.ite_neg (by simp [hblack]) (.pure _ _))

/-- Below a red parent it does a round on the side of that, and goes on from
    what the round gives. -/
theorem takes_climbRed_of_red {limit : Nat} {f g : Frame} {u v : Shape} (next : Option Handle)
    (hred : f.color = .red) (hx : x ≠ .nil) (hnodup : (Path.fill (f :: g :: up) x).slots.Nodup)
    (hnext : (match next with
      | some y => climbRed limit y
      | none => pure () : Rewiring α Unit).Takes u () v)
    (hround : (redRound g.side (.ofChild x.slot?) (.node f.slot) (.node g.slot) : Rewiring α (Option Handle)).Takes
      (Path.fill (f :: g :: up) x) next u) :
    (climbRed (limit + 1) (.ofChild x.slot?) : Rewiring α Unit).Takes (Path.fill (f :: g :: up) x) () v := by
  obtain ⟨side, color, slot, sibling⟩ := g
  have hother : Handle.ofChild sibling.slot? ≠ .ofChild (f.close x).slot? := by
    obtain ⟨_, _, _, hapart, _⟩ := Shape.apart_of_nodup_fill (p := up) hnodup
    exact (Shape.ofChild_ne_of_disjoint Shape.branch_ne_nil hapart).symm
  have hside : (bySide (.node f.slot) (.node slot) (redRoundLeft (.ofChild x.slot?) (.node f.slot) (.node slot))
      (redRoundRight (.ofChild x.slot?) (.node f.slot) (.node slot)) : Rewiring α (Option Handle)).Takes
      (Path.fill (f :: ⟨side, color, slot, sibling⟩ :: up) x) next u := by
    rw [← Shape.ofChild_slot?_branch f.side f.color f.slot x f.sibling] at hround ⊢
    refine takes_bySide up side color slot (f.close x) sibling hother ?_
    cases side <;> exact hround
  refine (takes_root _).bind (.ite_neg (Shape.ofChild_ne_root hnodup) ?_)
  refine (takes_parentOf (f :: ⟨side, color, slot, sibling⟩ :: up) hx).bind ?_
  refine (takes_isRed_self (⟨side, color, slot, sibling⟩ :: up) f.side f.color f.slot x f.sibling).bind
    (.ite_pos (by simp [hred]) ?_)
  refine (takes_parent (⟨side, color, slot, sibling⟩ :: up) f.side f.color f.slot x f.sibling).bind ?_
  exact hside.bind hnext

end Rounds

/-- The loop ends where the repair of a red node does, before the root is
    painted black. -/
theorem exists_takes_climbRed : ∀ {p : Path} {x : Shape} {r : Repaired} {limit : Nat}, p.repairRed x = .ok r →
    x ≠ .nil → (p.fill x).slots.Nodup → p.length < limit →
    ∃ u, (climbRed limit (.ofChild x.slot?) : Rewiring α Unit).Takes (p.fill x) () u ∧ u ≠ .nil ∧
      u.paint .black = r.shape
  | p, x, r, 0, _, _, _, hlimit => absurd hlimit (Nat.not_lt_zero _)
  | [], x, r, limit + 1, hr, hx, _, _ => by
    rw [Path.repairRed_nil hx] at hr
    obtain rfl := Except.ok.inj hr
    exact ⟨x, (takes_root x).bind (.ite_pos rfl (.pure _ _)), hx, rfl⟩
  | [f], x, r, limit + 1, hr, hx, hnodup, hlimit => by
    rw [Path.repairRed_singleton] at hr
    split at hr
    · next hblack =>
      obtain rfl := Except.ok.inj hr
      exact ⟨_, takes_climbRed_of_black limit hblack hx hnodup, Path.fill_cons_ne_nil f [] x, rfl⟩
    · cases hr
  | f :: g :: up, x, r, limit + 1, hr, hx, hnodup, hlimit => by
    rw [Path.repairRed_cons_cons] at hr
    cases hcolor : f.color with
    | black =>
      rw [if_pos hcolor] at hr
      obtain rfl := Except.ok.inj hr
      exact ⟨_, takes_climbRed_of_black limit hcolor hx hnodup, Path.fill_cons_ne_nil f (g :: up) x, rfl⟩
    | red =>
      rw [if_neg (by simp [hcolor])] at hr
      by_cases huncle : g.sibling.isRed = true
      · rw [if_pos huncle, map_eq_ok, Frame.close, Shape.paint_branch] at hr
        obtain ⟨above, habove, rfl⟩ := hr
        have hround := takes_redRound_of_red (α := α) up g.side f.side (.ofChild x.slot?) f.color g.color g.slot
          f.slot x f.sibling huncle
        have hup : up.length < limit := by
          simp only [List.length_cons] at hlimit
          omega
        obtain ⟨u, hrest, hu, hshape⟩ := exists_takes_climbRed habove Shape.branch_ne_nil
          (hround.slots ▸ hnodup) hup
        rw [Shape.ofChild_slot?_branch] at hrest
        exact ⟨u, takes_climbRed_of_red (some _) hcolor hx hnodup hrest hround, hu, hshape⟩
      rw [if_neg huncle] at hr
      obtain ⟨fs, fc, fslot, fsib⟩ := f
      obtain ⟨gs, gc, gslot, gsib⟩ := g
      obtain ⟨_, hslot, _, hapart, _⟩ := Shape.apart_of_nodup_fill (p := ⟨gs, gc, gslot, gsib⟩ :: up) hnodup
      by_cases hside : fs = gs
      · subst hside
        have hfar := Shape.ofChild_ne_of_disjoint hx hapart
        have hround := takes_redRound_outer (α := α) up fs fc gc gslot fslot fsib huncle hx hfar
        simp only [if_true, Path.raise, Frame.close, Shape.paint_branch, Shape.rotate_opposite_branch, except_map] at hr
        obtain rfl := Except.ok.inj hr
        exact ⟨_, takes_climbRed_of_red none hcolor hx hnodup (.pure _ _) hround,
          Path.fill_ne_nil up Shape.branch_ne_nil, rfl⟩
      · obtain rfl : fs = gs.opposite := by cases fs <;> cases gs <;> simp_all
        obtain rfl | ⟨b, s, inner, outer, rfl⟩ := Shape.eq_nil_or_branch gs x
        · exact absurd rfl hx
        have hround := takes_redRound_inner (α := α) up gs b fc gc gslot fslot s fsib inner outer huncle
        rw [← Shape.ofChild_slot?_branch gs b s inner outer, ← Shape.branch_opposite gs fc] at hround
        simp only [if_neg hside, Path.raise, Frame.close, Shape.branch_opposite, Shape.rotate_branch, ok_bind,
          Shape.paint_branch, Shape.rotate_opposite_branch, except_map] at hr
        obtain rfl := Except.ok.inj hr
        exact ⟨_, takes_climbRed_of_red none hcolor hx hnodup (.pure _ _) hround,
          Path.fill_ne_nil up Shape.branch_ne_nil, rfl⟩

/-- The program comes to the repair of a red node: it ends without a fault, and
    leaves the links of the repaired shape. -/
theorem takes_insertFixup {p : Path} {x : Shape} {r : Repaired} {limit : Nat} (hr : p.repairRed x = .ok r)
    (hx : x ≠ .nil) (hnodup : (p.fill x).slots.Nodup) (hlimit : p.length < limit) :
    (insertFixup limit (.ofChild x.slot?) : Rewiring α Unit).Takes (p.fill x) () r.shape := by
  obtain ⟨u, hclimb, hu, hshape⟩ := exists_takes_climbRed (α := α) hr hx hnodup hlimit
  rw [← hshape]
  exact hclimb.bind ((takes_root u).bind (takes_paint [] .black hu))

end Rewiring

end RedBlack
