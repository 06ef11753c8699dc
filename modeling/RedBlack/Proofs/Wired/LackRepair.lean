import RedBlack.Proofs.Shape.Loops
import RedBlack.Proofs.Wired.Rotation

namespace RedBlack

namespace Frame.Settlement

/-- The subtree that the settlement leaves. -/
def shape : Settlement → Shape
  | settled t _ => t
  | short t => t

def isShort : Settlement → Bool
  | settled .. => false
  | short _ => true

end Frame.Settlement

namespace Progress

/-- The whole that a round leaves. -/
def shape : Progress → Shape
  | mended _ shape => shape
  | moved _ p x => p.fill x

def isMoved : Progress → Bool
  | mended .. => false
  | moved .. => true

end Progress

namespace Rewiring

variable {α : Type}

/-- Whether the child of a node on a side is black, as a missing one is. -/
def blackChild (side : Side) (w : Handle) : Rewiring α Bool := do
  return !(← isRed (← child side w))

/-- A round on a node that lacks a black node and is the left child of `xp`. It
    tells whether the lack is passed to the parent. -/
def lackRoundLeft (xp : Handle) : Rewiring α Bool := do
  let w ← child .right xp
  let w ←
    if ← isRed w then do
      setColor .black w
      setColor .red xp
      rotateLeft xp
      child .right xp
    else pure w
  if ← blackChild .left w <&&> blackChild .right w then
    setColor .red w
    return true
  else
    let w ←
      if ← blackChild .right w then do
        let near ← child .left w
        setColor .black near
        setColor .red w
        rotateRight w
        child .right xp
      else pure w
    let pc ← color xp
    setColor pc w
    setColor .black xp
    let far ← child .right w
    setColor .black far
    rotateLeft xp
    return false

/-- A round on a node that lacks a black node and is the right child of `xp`. -/
def lackRoundRight (xp : Handle) : Rewiring α Bool := do
  let w ← child .left xp
  let w ←
    if ← isRed w then do
      setColor .black w
      setColor .red xp
      rotateRight xp
      child .left xp
    else pure w
  if ← blackChild .right w <&&> blackChild .left w then
    setColor .red w
    return true
  else
    let w ←
      if ← blackChild .left w then do
        let near ← child .right w
        setColor .black near
        setColor .red w
        rotateLeft w
        child .left xp
      else pure w
    let pc ← color xp
    setColor pc w
    setColor .black xp
    let far ← child .left w
    setColor .black far
    rotateRight xp
    return false

/-- The loop over a black node `x` below `xp`, which may be missing itself. It
    gives the node where it ends. -/
def climbLack : Nat → Handle → Handle → Rewiring α Handle
  | 0, _, _ => failure
  | limit + 1, x, xp => do
    if x = (← root) then return x
    else if ← isRed x then return x
    else if ← bySide x xp (lackRoundLeft xp) (lackRoundRight xp) then
      climbLack limit xp (← parent xp)
    else return x

/-- Makes good the lack of a black node at `x`, which hangs below `xp` and may
    be missing. -/
def eraseFixup (limit : Nat) (x xp : Handle) : Rewiring α Unit := do
  let x ← climbLack limit x xp
  if x = .nil then return ()
  else setColor .black x

/-- The loan of a node by the sibling `w`, whose child on the far side is
    red. -/
def lendFrom (side : Side) (xp w : Handle) : Rewiring α Bool := do
  let pc ← color xp
  setColor pc w
  setColor .black xp
  let far ← child side.opposite w
  setColor .black far
  rotate side xp
  return false

/-- The part of a round that follows once the sibling `w` is black. -/
def settleLack (side : Side) (xp w : Handle) : Rewiring α Bool := do
  if ← blackChild side w <&&> blackChild side.opposite w then
    setColor .red w
    return true
  else
    let w ←
      if ← blackChild side.opposite w then do
        let near ← child side w
        setColor .black near
        setColor .red w
        rotate side.opposite w
        child side.opposite xp
      else pure w
    lendFrom side xp w

def lackRound : Side → Handle → Rewiring α Bool
  | .left => lackRoundLeft
  | .right => lackRoundRight

/-- The two rounds are written alike, with the sides exchanged. -/
theorem lackRound_eq (side : Side) (xp : Handle) : (lackRound side xp : Rewiring α Bool) = (do
    let w ← child side.opposite xp
    let w ←
      if ← isRed w then do
        setColor .black w
        setColor .red xp
        rotate side xp
        child side.opposite xp
      else pure w
    settleLack side xp w) := by
  cases side <;> rfl

section Rounds

variable (p : Path) (side : Side) (c d : Color) (s w : Slot) (x near far : Shape)

theorem takes_blackChild : (blackChild side (.node s) : Rewiring α Bool).Takes (p.fill (.branch side c s near far))
    (!near.isRed) (p.fill (.branch side c s near far)) :=
  (takes_child p side c s near far).bind ((takes_isRed_near p side c s near far).bind (.pure _ _))

theorem takes_blackChild_opposite : (blackChild side.opposite (.node s) : Rewiring α Bool).Takes
    (p.fill (.branch side c s near far)) (!far.isRed) (p.fill (.branch side c s near far)) :=
  (takes_child_opposite p side c s near far).bind ((takes_isRed_far p side c s near far).bind (.pure _ _))

/-- The second child is looked at only where the first one is black. -/
theorem takes_blackChildren :
    (blackChild side (.node s) <&&> blackChild side.opposite (.node s) : Rewiring α Bool).Takes
      (p.fill (.branch side c s near far)) (!near.isRed && !far.isRed) (p.fill (.branch side c s near far)) := by
  refine (takes_blackChild p side c s near far).bind ?_
  cases hnear : near.isRed with
  | true => exact .pure _ _
  | false => exact takes_blackChild_opposite p side c s near far

theorem takes_lendFrom (hfar : far ≠ .nil) : (lendFrom side (.node s) (.node w) : Rewiring α Bool).Takes
    (p.fill (.branch side c s x (.branch side d w near far))) false
    (p.fill (.branch side c w (.branch side .black s x near) (far.paint .black))) := by
  refine (takes_color p side c s x (.branch side d w near far)).bind ?_
  refine (takes_setColor _ side d w near far c).onFar.bind ?_
  refine (takes_setColor p side c s x (.branch side c w near far) .black).bind ?_
  refine (takes_child_opposite _ side c w near far).onFar.bind ?_
  refine (takes_paint_far _ side c w near .black hfar).onFar.bind ?_
  exact (takes_rotate p side .black c s w x near (far.paint .black)).bind (.pure _ _)

theorem takes_settleLack_of_black (hnear : near.isRed = false) (hfar : far.isRed = false) :
    (settleLack side (.node s) (.node w) : Rewiring α Bool).Takes
      (p.fill (.branch side c s x (.branch side d w near far))) true
      (p.fill (.branch side c s x (.branch side .red w near far))) := by
  refine (takes_blackChildren _ side d w near far).onFar.bind (.ite_pos (by simp [hnear, hfar]) ?_)
  exact (takes_setColor _ side d w near far .red).onFar.bind (.pure _ _)

theorem takes_settleLack_of_far (hfar : far.isRed = true) :
    (settleLack side (.node s) (.node w) : Rewiring α Bool).Takes
      (p.fill (.branch side c s x (.branch side d w near far))) false
      (p.fill (.branch side c w (.branch side .black s x near) (far.paint .black))) := by
  refine (takes_blackChildren _ side d w near far).onFar.bind (.ite_neg (by simp [hfar]) ?_)
  refine (takes_blackChild_opposite _ side d w near far).onFar.bind (.ite_neg (by simp [hfar]) ?_)
  exact (Takes.pure _ _).bind (takes_lendFrom p side c d s w x near far (Shape.ne_nil_of_red hfar))

/-- A sibling with a red child on the near side only is turned down over that
    child first. -/
theorem takes_settleLack_of_near (b : Color) (r : Slot) (outer inner : Shape)
    (hnear : (Shape.branch side b r outer inner).isRed = true) (hfar : far.isRed = false) :
    (settleLack side (.node s) (.node w) : Rewiring α Bool).Takes
      (p.fill (.branch side c s x (.branch side d w (.branch side b r outer inner) far))) false
      (p.fill (.branch side c r (.branch side .black s x outer) (.branch side .black w inner far))) := by
  have hne : Shape.branch side b r outer inner ≠ .nil := Shape.branch_ne_nil
  have hpaint := takes_paint_near (α := α) (⟨side.opposite, c, s, x⟩ :: p) side d w far .black hne
  rw [Shape.paint_branch] at hpaint
  refine (takes_blackChildren _ side d w _ far).onFar.bind (.ite_neg (by simp [hnear]) ?_)
  refine (takes_blackChild_opposite _ side d w _ far).onFar.bind (.ite_pos (by simp [hfar]) ?_)
  refine (takes_child _ side d w _ far).onFar.bind (hpaint.onFar.bind ?_)
  refine (takes_setColor _ side d w _ far .red).onFar.bind ?_
  refine (takes_rotate_opposite _ side .red .black w r outer inner far).onFar.bind ?_
  refine (takes_child_opposite p side c s x _).bind ?_
  have hlend := takes_lendFrom (α := α) p side c .black s r x outer (.branch side .red w inner far) Shape.branch_ne_nil
  rw [Shape.paint_branch] at hlend
  rwa [Shape.ofChild_slot?_branch]

/-- What is left beside a black sibling is what the settlement of the lack makes
    of it. -/
theorem takes_settleLack {f : Frame} {out : Frame.Settlement} (up : Path) (hout : f.settle x = .ok out) :
    (settleLack f.side (.node f.slot) (.ofChild f.sibling.slot?) : Rewiring α Bool).Takes (Path.fill (f :: up) x)
      out.isShort (up.fill out.shape) := by
  obtain ⟨side, c, s, sibling⟩ := f
  obtain rfl | ⟨d, w, near, far, rfl⟩ := Shape.eq_nil_or_branch side sibling
  · cases hout
  rw [Frame.settle_eq_lend x Shape.branch_ne_nil, Shape.child_branch_self, Shape.child_branch_opposite] at hout
  rw [Shape.ofChild_slot?_branch]
  by_cases hblack : (!near.isRed && !far.isRed) = true
  · obtain ⟨hnear, hfar⟩ : near.isRed = false ∧ far.isRed = false := by simpa using hblack
    rw [if_pos hblack, Shape.paint_branch] at hout
    obtain rfl := Except.ok.inj hout
    exact takes_settleLack_of_black up side c d s w x near far hnear hfar
  rw [if_neg hblack] at hout
  cases hfar : far.isRed with
  | true =>
    rw [if_pos hfar, Frame.lend, Shape.paint_branch, Shape.paintChild_opposite_branch, Shape.rotate_branch] at hout
    obtain rfl := Except.ok.inj hout
    exact takes_settleLack_of_far up side c d s w x near far hfar
  | false =>
    have hnear : near.isRed = true := by simpa [hfar] using hblack
    obtain rfl | ⟨b, r, outer, inner, rfl⟩ := Shape.eq_nil_or_branch side near
    · cases hnear
    rw [hfar, if_neg Bool.false_ne_true, Shape.paintChild_branch, Shape.paint_branch, Shape.paint_branch,
      Shape.rotate_opposite_branch, ok_bind, Frame.lend, Shape.paint_branch, Shape.paintChild_opposite_branch,
      Shape.paint_branch, Shape.rotate_branch] at hout
    obtain rfl := Except.ok.inj hout
    exact takes_settleLack_of_near up side c d s w x far b r outer inner hnear hfar

/-- A round does what the round of the repair does; it tells whether the lack
    has moved, and where it has the parent is the node that lacks now. -/
theorem takes_lackRound {f : Frame} {out : Progress} (up : Path) (hout : Path.lackRound (f :: up) x = .ok out) :
    (lackRound f.side (.node f.slot) : Rewiring α Bool).Takes (Path.fill (f :: up) x) out.isMoved out.shape := by
  obtain ⟨side, c, s, sibling⟩ := f
  rw [lackRound_eq]
  by_cases hred : sibling.isRed = true
  · obtain ⟨w, near, far, rfl⟩ := Shape.exists_branch_of_color_red (Shape.isRed_iff.mp hred) side
    rw [Path.lackRound_of_red up x rfl] at hout
    obtain ⟨settlement, hsettle, rfl⟩ := map_eq_ok.mp hout
    refine (takes_child_opposite up side c s x _).bind ?_
    refine (takes_isRed_far up side c s x _).bind (.ite_pos hred ?_)
    rw [Shape.ofChild_slot?_branch]
    have hturn := takes_turn (α := α) up (Path.rotate_raised ⟨side, c, s, .nil⟩ w x near far)
    rw [Frame.close, Shape.ofChild_slot?_branch] at hturn
    have hrest := takes_settleLack (α := α) x (⟨side, .black, w, far⟩ :: up) hsettle
    refine (takes_setColor _ side .red w near far .black).onFar.bind ?_
    refine (takes_setColor up side c s x _ .red).bind (hturn.bind ?_)
    refine (takes_child_opposite (⟨side, .black, w, far⟩ :: up) side .red s x near).bind ?_
    cases settlement <;> exact hrest
  · have hblack := Shape.color_eq_black_iff.mpr hred
    rw [Path.lackRound_of_black up x hblack] at hout
    obtain ⟨settlement, hsettle, rfl⟩ := map_eq_ok.mp hout
    refine (takes_child_opposite up side c s x sibling).bind ?_
    refine (takes_isRed_far up side c s x sibling).bind (.ite_neg hred ((Takes.pure _ _).bind ?_))
    have hrest := takes_settleLack (α := α) x up hsettle
    cases settlement <;> exact hrest

end Rounds

/-- What takes over a lack from a subtree is the parent of that. -/
theorem slot?_of_settle {f : Frame} {x t : Shape} (h : f.settle x = .ok (.short t)) : t.slot? = some f.slot := by
  by_cases hsibling : f.sibling = .nil
  · rw [Frame.settle, hsibling] at h
    cases h
  rw [Frame.settle_eq_lend x hsibling] at h
  split at h
  · obtain ⟨⟩ := Except.ok.inj h
    exact Shape.slot?_branch ..
  split at h
  · obtain ⟨_, _, ⟨⟩⟩ := map_eq_ok.mp h
  · obtain ⟨_, _, hlend⟩ := bind_eq_ok.mp h
    obtain ⟨_, _, ⟨⟩⟩ := map_eq_ok.mp hlend

theorem slot?_of_lackRound {f : Frame} {up q : Path} {x y : Shape} {work : Round}
    (h : Path.lackRound (f :: up) x = .ok (.moved work q y)) : y.slot? = some f.slot := by
  cases hsibling : f.sibling.color with
  | red =>
    obtain ⟨w, near, far, hbranch⟩ := Shape.exists_branch_of_color_red hsibling f.side
    rw [Path.lackRound_of_red up x hbranch] at h
    obtain ⟨_ | t, hsettle, ⟨⟩⟩ := map_eq_ok.mp h
    exact slot?_of_settle (f := { f with color := .red, sibling := near }) hsettle
  | black =>
    rw [Path.lackRound_of_black up x hsibling] at h
    obtain ⟨_ | t, hsettle, ⟨⟩⟩ := map_eq_ok.mp h
    exact slot?_of_settle hsettle

/-- Where a lack is made good the subtree is still there, below the node that
    was lent and its old parent. -/
theorem exists_fill_of_settle {f : Frame} {x t : Shape} {turns : Nat} (h : f.settle x = .ok (.settled t turns)) :
    ∃ q : Path, q.fill x = t := by
  by_cases hsibling : f.sibling = .nil
  · rw [Frame.settle, hsibling] at h
    cases h
  have hlend {lender : Shape} {turns' : Nat} (h : f.lend x lender turns' = .ok (.settled t turns)) :
      ∃ q : Path, q.fill x = t := by
    obtain ⟨t', hturn, heq⟩ := map_eq_ok.mp h
    obtain ⟨rfl, _⟩ := Frame.Settlement.settled.inj heq
    obtain rfl | ⟨c, w, near, far, rfl⟩ := Shape.eq_nil_or_branch f.side lender
    · cases hside : f.side <;> rw [hside] at hturn <;> cases hturn
    rw [Shape.paint_branch, Shape.paintChild_opposite_branch, Shape.rotate_branch] at hturn
    obtain rfl := Except.ok.inj hturn
    exact ⟨[⟨f.side, .black, f.slot, near⟩, ⟨f.side, f.color, w, far.paint .black⟩], rfl⟩
  rw [Frame.settle_eq_lend x hsibling] at h
  split at h
  · cases h
  split at h
  · exact hlend h
  · obtain ⟨_, _, h⟩ := bind_eq_ok.mp h
    exact hlend h

theorem exists_fill_of_lackRound {f : Frame} {up : Path} {x shape : Shape} {work : Round}
    (h : Path.lackRound (f :: up) x = .ok (.mended work shape)) : ∃ q : Path, q.fill x = shape := by
  cases hsibling : f.sibling.color with
  | red =>
    obtain ⟨w, near, far, hbranch⟩ := Shape.exists_branch_of_color_red hsibling f.side
    rw [Path.lackRound_of_red up x hbranch] at h
    obtain ⟨⟨t, turns⟩ | _, hsettle, ⟨⟩⟩ := map_eq_ok.mp h
    obtain ⟨q, rfl⟩ := exists_fill_of_settle hsettle
    exact ⟨q ++ ⟨f.side, .black, w, far⟩ :: up, Path.fill_append ..⟩
  | black =>
    rw [Path.lackRound_of_black up x hsibling] at h
    obtain ⟨⟨t, turns⟩ | _, hsettle, ⟨⟩⟩ := map_eq_ok.mp h
    obtain ⟨q, rfl⟩ := exists_fill_of_settle hsettle
    exact ⟨q ++ up, Path.fill_append ..⟩

theorem sibling_ne_nil_of_lackRound {f : Frame} {up : Path} {x : Shape} {out : Progress}
    (h : Path.lackRound (f :: up) x = .ok out) : f.sibling ≠ .nil := by
  intro hsibling
  rw [Path.lackRound_of_black up x (by rw [hsibling]; rfl), Frame.settle, hsibling] at h
  cases h

section Climb

variable {f : Frame} {up : Path} {x : Shape} {limit : Nat}

/-- Below the root the loop does a round on a black subtree, on the side where
    that hangs, and goes on with the parent if the lack has moved there. -/
theorem takes_climbLack_of_black {moved : Bool} {u v : Shape} {value : Handle} (hblack : x.isRed = false)
    (hnodup : (Path.fill (f :: up) x).slots.Nodup) (hsibling : f.sibling ≠ .nil)
    (hnext : (if moved then parent (.node f.slot) >>= climbLack limit (.node f.slot) else pure (.ofChild x.slot?) :
      Rewiring α Handle).Takes u value v)
    (hround : (lackRound f.side (.node f.slot) : Rewiring α Bool).Takes (Path.fill (f :: up) x) moved u) :
    (climbLack (limit + 1) (.ofChild x.slot?) (.node f.slot) : Rewiring α Handle).Takes (Path.fill (f :: up) x)
      value v := by
  obtain ⟨side, c, s, sibling⟩ := f
  obtain ⟨_, _, _, hapart, _⟩ := Shape.apart_of_nodup_fill (p := up) hnodup
  have hother := Shape.ofChild_ne_of_disjoint hsibling (List.disjoint_symm hapart)
  have hside : (bySide (.ofChild x.slot?) (.node s) (lackRoundLeft (.node s)) (lackRoundRight (.node s)) :
      Rewiring α Bool).Takes (Path.fill (⟨side, c, s, sibling⟩ :: up) x) moved u := by
    refine takes_bySide up side c s x sibling hother ?_
    cases side <;> exact hround
  refine (takes_root _).bind (.ite_neg (Shape.ofChild_ne_root hnodup) ?_)
  refine (takes_isRed _ x).bind (.ite_neg (by simp [hblack]) ?_)
  exact hside.bind hnext

theorem takes_climbLack_of_red (hred : x.isRed = true) (hnodup : (Path.fill (f :: up) x).slots.Nodup) :
    (climbLack (limit + 1) (.ofChild x.slot?) (.node f.slot) : Rewiring α Handle).Takes (Path.fill (f :: up) x)
      (.ofChild x.slot?) (Path.fill (f :: up) x) := by
  refine (takes_root _).bind (.ite_neg (Shape.ofChild_ne_root hnodup) ?_)
  exact (takes_isRed (f :: up) x).bind (.ite_pos hred (.pure _ _))

end Climb

/-- The loop ends at a node that is black in the repaired shape, or is missing.
    A lack goes up to the parent, or below a raised sibling to a parent that has
    turned red. -/
theorem exists_takes_climbLack : ∀ {limit : Nat} {p : Path} {x : Shape} {r : Repaired}, p.repairShort x = .ok r →
    (p.fill x).slots.Nodup → r.rounds.length < limit → ∃ (q : Path) (y : Shape),
    (climbLack limit (.ofChild x.slot?) p.parent : Rewiring α Handle).Takes (p.fill x) (.ofChild y.slot?) (q.fill y) ∧
      q.fill (y.paint .black) = r.shape
  | 0, _, _, _, _, _, hlimit => absurd hlimit (Nat.not_lt_zero _)
  | limit + 1, [], x, r, hr, _, _ => by
    obtain rfl := Except.ok.inj hr
    exact ⟨[], x, (takes_root x).bind (.ite_pos rfl (.pure _ _)), rfl⟩
  | limit + 1, f :: up, x, r, hr, hnodup, hlimit => by
    cases Path.repairShort_follows.goes hr with
    | done hdue hfinish =>
      have hred : x.isRed = true := by simpa [Path.lackLoop] using hdue
      obtain rfl := Except.ok.inj hfinish
      exact ⟨f :: up, x, takes_climbLack_of_red hred hnodup, rfl⟩
    | @mended work shape hdue hround =>
      have hblack : x.isRed = false := by simpa [Path.lackLoop] using hdue
      have htakes := takes_lackRound (α := α) x up hround
      obtain ⟨q, rfl⟩ := exists_fill_of_lackRound hround
      have hpaint : x.paint .black = x :=
        Shape.paint_of_color_eq (Shape.color_eq_black_iff.mpr (by simp [hblack]))
      refine ⟨q, x, ?_, congrArg q.fill hpaint⟩
      exact takes_climbLack_of_black hblack hnodup (sibling_ne_nil_of_lackRound hround) (.pure _ _) htakes
    | @moved work q y above hdue hround habove =>
      have hblack : x.isRed = false := by simpa [Path.lackLoop] using hdue
      have htakes := takes_lackRound (α := α) x up hround
      have hslot := slot?_of_lackRound hround
      have hy : y ≠ .nil := by
        rintro rfl
        cases hslot
      have hrounds : above.rounds.length < limit := Nat.lt_of_succ_lt_succ hlimit
      obtain ⟨q', y', hrest, hshape⟩ := exists_takes_climbLack habove (htakes.slots ▸ hnodup) hrounds
      have hparent := (takes_parentOf (α := α) q hy).bind hrest
      rw [hslot] at hparent
      refine ⟨q', y', takes_climbLack_of_black hblack hnodup (sibling_ne_nil_of_lackRound hround) ?_ htakes, hshape⟩
      exact hparent

/-- The program comes to the repair of a lack: it ends without a fault, and
    leaves the links of the repaired shape. -/
theorem takes_eraseFixup {p : Path} {x : Shape} {r : Repaired} {limit : Nat} (hr : p.repairShort x = .ok r)
    (hnodup : (p.fill x).slots.Nodup) (hlimit : p.length < limit) :
    (eraseFixup limit (.ofChild x.slot?) p.parent : Rewiring α Unit).Takes (p.fill x) () r.shape := by
  have hrounds := (Path.repairShort_climbs hr).1
  obtain ⟨q, y, hclimb, hshape⟩ := exists_takes_climbLack (α := α) hr hnodup (Nat.lt_of_le_of_lt hrounds hlimit)
  rw [← hshape]
  refine hclimb.bind ?_
  cases y with
  | nil => exact .ite_pos rfl (.pure _ _)
  | node color left slot right => exact .ite_neg nofun (takes_paint q .black nofun)

end Rewiring

end RedBlack
