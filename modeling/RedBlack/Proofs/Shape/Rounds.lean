import RedBlack.Proofs.Action
import RedBlack.Proofs.Shape.Balance
import RedBlack.Proofs.Shape.Holes
import RedBlack.Shape.Pruning

namespace RedBlack

namespace Shape

/-- Gives the child on a side a colour, where there is one. -/
def paintChild (side : Side) (color : Color) : Shape → Shape
  | nil => nil
  | node c left slot right =>
    match side with
    | .left => node c (left.paint color) slot right
    | .right => node c left slot (right.paint color)

@[simp] theorem recolor_branch (side : Side) (c color : Color) (slot : Slot) (near far : Shape) :
    (branch side c slot near far).recolor color = .ok (branch side color slot near far) := by
  cases side <;> rfl

theorem recolor_of_ne_nil {t : Shape} (color : Color) (h : t ≠ nil) : t.recolor color = .ok (t.paint color) := by
  cases t with
  | nil => exact absurd rfl h
  | node => rfl

theorem ne_nil_of_red {t : Shape} (h : t.isRed = true) : t ≠ nil := by
  rintro rfl
  cases h

theorem recolor_of_red {t : Shape} (color : Color) (h : t.isRed = true) : t.recolor color = .ok (t.paint color) :=
  recolor_of_ne_nil color (ne_nil_of_red h)

theorem recolorChild_branch (side : Side) (c color : Color) (slot : Slot) (near far : Shape) :
    (branch side c slot near far).recolorChild side color =
      (near.recolor color).map fun near => branch side c slot near far := by
  cases side <;> cases near <;> rfl

theorem recolorChild_opposite_branch (side : Side) (c color : Color) (slot : Slot) (near far : Shape) :
    (branch side c slot near far).recolorChild side.opposite color =
      (far.recolor color).map (branch side c slot near) := by
  cases side <;> cases far <;> rfl

theorem branch_ne_nil {side : Side} {color : Color} {slot : Slot} {near far : Shape} :
    branch side color slot near far ≠ nil := by
  cases side <;> nofun

theorem ne_nil_of_rotate {side : Side} {t after : Shape} (h : t.rotate side = .ok after) : after ≠ nil := by
  obtain rfl | ⟨c, slot, near, far, rfl⟩ := eq_nil_or_branch side t
  · cases h
  obtain rfl | ⟨d, raised, inner, outer, rfl⟩ := eq_nil_or_branch side far
  · cases side <;> cases h
  · rw [rotate_branch] at h
    obtain rfl := Except.ok.inj h
    exact branch_ne_nil

@[simp] theorem paintChild_branch (side : Side) (c color : Color) (slot : Slot) (near far : Shape) :
    (branch side color slot near far).paintChild side c = branch side color slot (near.paint c) far := by
  cases side <;> rfl

@[simp] theorem paintChild_opposite_branch (side : Side) (c color : Color) (slot : Slot)
    (near far : Shape) :
    (branch side color slot near far).paintChild side.opposite c =
      branch side color slot near (far.paint c) := by
  cases side <;> rfl

end Shape

/-- The repair went on above, after a round without rotations. -/
def Repaired.passedOn (above : Repaired) : Repaired :=
  { above with rounds := {} :: above.rounds }

namespace Frame

/-- The loan of a node by a sibling whose child on the far side is red: the
    sibling comes up, and the parent goes down to the side that lacks a node. -/
def lend (f : Frame) (x lender : Shape) (turns : Nat) : Except Fault Settlement :=
  ((Shape.branch f.side .black f.slot x ((lender.paint f.color).paintChild f.side.opposite .black)).rotate f.side).map
    (Settlement.settled · (turns + 1))

theorem lend_eq_bind (f : Frame) (x : Shape) {lender : Shape} (turns : Nat)
    (hfar : lender.child f.side.opposite ≠ .nil) :
    (do
      let lender ← (← lender.recolor f.color).recolorChild f.side.opposite .black
      let t ← (Frame.close { f with color := .black, sibling := lender } x).rotate f.side
      return Settlement.settled t (turns + 1)) = f.lend x lender turns := by
  obtain ⟨side, color, slot, sibling⟩ := f
  obtain rfl | ⟨c, s, near, far, rfl⟩ := Shape.eq_nil_or_branch side lender
  · cases side <;> exact absurd rfl hfar
  rw [Shape.child_branch_opposite] at hfar
  simp only [Shape.recolor_branch, ok_bind, Shape.recolorChild_opposite_branch, Shape.recolor_of_ne_nil _ hfar,
    except_map, lend, close, Shape.paint_branch, Shape.paintChild_opposite_branch]
  cases (Shape.branch side .black slot x (.branch side color s near (far.paint .black))).rotate side <;> rfl

theorem settle_eq_lend {f : Frame} (x : Shape) (hsibling : f.sibling ≠ .nil) :
    f.settle x =
      if !(f.sibling.child f.side).isRed && !(f.sibling.child f.side.opposite).isRed then
        .ok (.short (.branch f.side f.color f.slot x (f.sibling.paint .red)))
      else if (f.sibling.child f.side.opposite).isRed then f.lend x f.sibling 0
      else ((f.sibling.paintChild f.side .black).paint .red).rotate f.side.opposite >>= (f.lend x · 1) := by
  obtain ⟨side, color, slot, sibling⟩ := f
  obtain rfl | ⟨c, s, near, far, rfl⟩ := Shape.eq_nil_or_branch side sibling
  · exact absurd rfl hsibling
  have hsettle : settle ⟨side, color, slot, .branch side c s near far⟩ x =
      if !near.isRed && !far.isRed then
        return .short (Frame.close ⟨side, color, slot, ← (Shape.branch side c s near far).recolor .red⟩ x)
      else do
        let lender ←
          if far.isRed then pure (.branch side c s near far, 0)
          else do
            let sibling ← (← (Shape.branch side c s near far).recolorChild side .black).recolor .red
            pure (← sibling.rotate side.opposite, 1)
        let sibling ← (← lender.1.recolor color).recolorChild side.opposite .black
        let t ← (Frame.close ⟨side, .black, slot, sibling⟩ x).rotate side
        return .settled t (lender.2 + 1) := by
    cases side <;> rfl
  simp only [hsettle, Shape.child_branch_self, Shape.child_branch_opposite]
  split
  · rw [Shape.recolor_branch, Shape.paint_branch]
    rfl
  next hlends =>
  split
  · next hfar =>
    refine lend_eq_bind ⟨side, color, slot, .branch side c s near far⟩ x 0 ?_
    rw [Shape.child_branch_opposite]
    exact Shape.ne_nil_of_red hfar
  · next hfar =>
    have hnear : near.isRed = true := by simpa [hfar] using hlends
    rw [Shape.recolorChild_branch, Shape.recolor_of_red _ hnear, except_map, ok_bind, Shape.recolor_branch, ok_bind,
      Shape.paintChild_branch, Shape.paint_branch]
    obtain rfl | ⟨d, r, outer, inner, rfl⟩ := Shape.eq_nil_or_branch side near
    · cases hnear
    rw [Shape.paint_branch, Shape.rotate_opposite_branch]
    refine lend_eq_bind ⟨side, color, slot, .branch side c s (.branch side d r outer inner) far⟩ x 1 ?_
    rw [Shape.child_branch_opposite]
    exact Shape.branch_ne_nil

end Frame

namespace Path

/-- The end of the repair of red nodes: the subtree `lower` is raised over the
    grandparent `g`. -/
def raise (up : Path) (g : Frame) (lower : Shape) (turns : Nat) : Except Fault Repaired :=
  ((Shape.branch g.side .red g.slot (lower.paint .black) g.sibling).rotate g.side.opposite).map fun top =>
    { shape := (fill up top).paint .black, rounds := [{ rotations := turns + 1 }] }

theorem fill_ne_nil (p : Path) {t : Shape} (h : t ≠ .nil) : fill p t ≠ .nil :=
  fun hfill => h (fill_eq_nil hfill).2

theorem fill_cons_ne_nil (f : Frame) (up : Path) (t : Shape) : fill (f :: up) t ≠ .nil :=
  fill_ne_nil up Shape.branch_ne_nil

theorem repairRed_nil {x : Shape} (hx : x ≠ .nil) : repairRed [] x = .ok { shape := x.paint .black } := by
  rw [repairRed, Shape.recolor_of_ne_nil _ hx]
  rfl

theorem repairRed_singleton (p : Frame) (x : Shape) :
    repairRed [p] x =
      if p.color = .black then .ok { shape := (p.close x).paint .black } else .error (.dereference .header) := by
  have hclose : p.close x ≠ .nil := Shape.branch_ne_nil
  rw [repairRed, Shape.recolor_of_ne_nil _ hclose]
  rfl

theorem repairRed_cons_cons (p g : Frame) (up : Path) (x : Shape) :
    repairRed (p :: g :: up) x =
      if p.color = .black then .ok { shape := (fill (p :: g :: up) x).paint .black }
      else if g.sibling.isRed then
        (repairRed up (.branch g.side .red g.slot ((p.close x).paint .black) (g.sibling.paint .black))).map
          Repaired.passedOn
      else if p.side = g.side then raise up g (p.close x) 0
      else (p.close x).rotate g.side >>= (raise up g · 1) := by
  have hclose : p.close x ≠ .nil := Shape.branch_ne_nil
  have hraise (lower : Shape) (turns : Nat) (hlower : lower ≠ .nil) : (do
      let parent ← lower.recolor .black
      let top ← (Frame.close { g with color := .red } parent).rotate g.side.opposite
      return { shape := ← (fill up top).recolor .black, rounds := [{ rotations := turns + 1 }] }) =
      raise up g lower turns := by
    rw [Shape.recolor_of_ne_nil _ hlower, ok_bind, raise, Frame.close]
    cases htop : (Shape.branch g.side .red g.slot (lower.paint .black) g.sibling).rotate g.side.opposite with
    | error fault => rfl
    | ok top =>
      have hwhole := Shape.recolor_of_ne_nil .black (fill_ne_nil up (Shape.ne_nil_of_rotate htop))
      rw [ok_bind, hwhole]
      rfl
  rw [repairRed]
  split
  · rw [Shape.recolor_of_ne_nil _ (fill_cons_ne_nil p (g :: up) x)]
    rfl
  split
  · next huncle =>
    rw [Shape.recolor_of_ne_nil _ hclose, Shape.recolor_of_red _ huncle, ok_bind, ok_bind, Frame.close]
    cases repairRed up _ <;> rfl
  split
  · exact hraise _ 0 hclose
  · cases hlower : (p.close x).rotate g.side with
    | error fault => rfl
    | ok lower => exact hraise lower 1 (Shape.ne_nil_of_rotate hlower)

theorem repairShort_of_red (p : Path) {x : Shape} (hred : x.color = .red) :
    repairShort p x = .ok { shape := fill p (x.paint .black) } := by
  cases p with
  | nil => rfl
  | cons f up => simp [repairShort, Shape.isRed, hred]

/-- What the settlement below a node that is not raised comes to. -/
def afterSettling (up : Path) : Frame.Settlement → Except Fault Repaired
  | .settled t rotations => .ok { shape := fill up t, rounds := [{ rotations }] }
  | .short t => (repairShort up t).map Repaired.passedOn

/-- What the settlement below a raised sibling comes to. -/
def afterRaising (up : Path) : Frame.Settlement → Repaired
  | .settled t rotations => { shape := fill up t, rounds := [{ rotations := rotations + 1, raised := true }] }
  | .short t => { shape := fill up (t.paint .black), rounds := [{ rotations := 1, raised := true }] }

theorem repairShort_cons_of_red {f : Frame} {slot : Slot} {near far : Shape} (up : Path) {x : Shape}
    (hx : x.color = .black) (hsibling : f.sibling = .branch f.side .red slot near far) :
    repairShort (f :: up) x =
      (Frame.settle { f with color := .red, sibling := near } x).map
        (afterRaising (⟨f.side, .black, slot, far⟩ :: up)) := by
  obtain ⟨side, color, parent, sibling⟩ := f
  obtain rfl : sibling = .branch side .red slot near far := hsibling
  have hcases (out : Except Fault Frame.Settlement) : (do
      match ← out with
      | .settled t rotations => return afterRaising (⟨side, .black, slot, far⟩ :: up) (.settled t rotations)
      | .short t => return afterRaising (⟨side, .black, slot, far⟩ :: up) (.short t) : Except Fault Repaired) =
      out.map (afterRaising (⟨side, .black, slot, far⟩ :: up)) := by
    cases out with
    | error fault => rfl
    | ok settlement => cases settlement <;> rfl
  rw [← hcases]
  cases side <;> simp only [repairShort, if_neg (Shape.color_eq_black_iff.mp hx)] <;> rfl

theorem repairShort_cons_of_black {f : Frame} (up : Path) {x : Shape} (hx : x.color = .black)
    (hsibling : f.sibling.color = .black) : repairShort (f :: up) x = f.settle x >>= afterSettling up := by
  obtain ⟨side, color, slot, sibling⟩ := f
  have hcases (out : Except Fault Frame.Settlement) : (do
      match ← out with
      | .settled t rotations => return { shape := fill up t, rounds := [{ rotations }] }
      | .short t =>
        let above ← repairShort up t
        return { above with rounds := {} :: above.rounds } : Except Fault Repaired) = out >>= afterSettling up := by
    cases out with
    | error fault => rfl
    | ok settlement =>
      cases settlement with
      | settled t rotations => rfl
      | short t =>
        change (repairShort up t >>= _) = (repairShort up t).map Repaired.passedOn
        cases repairShort up t <;> rfl
  rw [← hcases, repairShort, if_neg (Shape.color_eq_black_iff.mp hx)]
  cases sibling with
  | nil => rfl
  | node c left s right =>
    obtain rfl : c = .black := hsibling
    rfl

end Path

end RedBlack
