import RedBlack.Proofs.Action
import RedBlack.Proofs.Shape.Rounds

namespace RedBlack

/-- What becomes of the slots and of the sides. The two sides of a node stay its
    two sides, so whatever tells them apart only as the one on which the way
    goes down and the other one commutes with it. -/
structure Symmetry where
  side : Side → Side
  slot : Slot → Slot
  side_opposite : ∀ s, side s.opposite = (side s).opposite

variable {σ : Symmetry} {α β γ δ : Type}

namespace Symmetry

@[simp] theorem side_eq_iff {a b : Side} : σ.side a = σ.side b ↔ a = b := by
  have hne : σ.side .left ≠ σ.side .right := by
    rw [← Side.opposite_left, σ.side_opposite]
    exact (Side.opposite_ne _).symm
  cases a <;> cases b <;> simp [hne, hne.symm]

/-- What becomes of a fault. Of those of a repair only one names a side. -/
def fault (σ : Symmetry) : Fault → Fault
  | .noChildToRaise toward => .noChildToRaise (σ.side toward)
  | fault => fault

/-- What becomes of an outcome, given what becomes of its answer. -/
def outcome (σ : Symmetry) (image : α → β) : Except Fault α → Except Fault β
  | .ok answer => .ok (image answer)
  | .error fault => .error (σ.fault fault)

/-- One step after another has the image of both as soon as each has. -/
theorem outcome_bind {image : α → β} {image' : γ → δ} (r : Except Fault α) {next : α → Except Fault γ}
    {next' : β → Except Fault δ} (h : ∀ a, next' (image a) = σ.outcome image' (next a)) :
    (σ.outcome image r >>= next') = σ.outcome image' (r >>= next) := by
  cases r with
  | error fault => rfl
  | ok a => exact h a

/-- A change of the answer has the image of the changed answer. -/
theorem outcome_map {image : α → β} {image' : γ → δ} (r : Except Fault α) {f : α → γ} {f' : β → δ}
    (h : ∀ a, f' (image a) = image' (f a)) : (σ.outcome image r).map f' = σ.outcome image' (r.map f) := by
  cases r with
  | error fault => rfl
  | ok a => exact congrArg Except.ok (h a)

end Symmetry

namespace Shape

/-- What becomes of a shape: every node gets its new slot, and its left subtree
    goes to where the left side goes. -/
def image (σ : Symmetry) : Shape → Shape
  | nil => nil
  | node color left slot right => branch (σ.side .left) color (σ.slot slot) (left.image σ) (right.image σ)

end Shape

namespace Frame

def image (σ : Symmetry) (f : Frame) : Frame where
  side := σ.side f.side
  color := f.color
  slot := σ.slot f.slot
  sibling := f.sibling.image σ

def Settlement.image (σ : Symmetry) : Settlement → Settlement
  | settled t rotations => settled (t.image σ) rotations
  | short t => short (t.image σ)

end Frame

def Path.image (σ : Symmetry) (p : Path) : Path :=
  p.map (Frame.image σ)

def Repaired.image (σ : Symmetry) (r : Repaired) : Repaired where
  shape := r.shape.image σ
  rounds := r.rounds

namespace Shape

@[simp] theorem image_nil : nil.image σ = nil :=
  rfl

@[simp] theorem image_branch (side : Side) (color : Color) (slot : Slot) (near far : Shape) :
    (branch side color slot near far).image σ =
      branch (σ.side side) color (σ.slot slot) (near.image σ) (far.image σ) := by
  cases side with
  | left => rfl
  | right =>
    rw [← Side.opposite_left, branch_opposite, σ.side_opposite, branch_opposite]
    rfl

@[simp] theorem child_image (side : Side) (t : Shape) : (t.image σ).child (σ.side side) = (t.child side).image σ := by
  obtain rfl | ⟨color, slot, near, far, rfl⟩ := eq_nil_or_branch side t
  · rfl
  · simp

@[simp] theorem child_opposite_image (side : Side) (t : Shape) :
    (t.image σ).child (σ.side side).opposite = (t.child side.opposite).image σ := by
  rw [← σ.side_opposite, child_image]

@[simp] theorem image_eq_nil {t : Shape} : t.image σ = nil ↔ t = nil := by
  cases t with
  | nil => simp
  | node => cases h : σ.side .left <;> simp [image, branch, h]

@[simp] theorem color_image (t : Shape) : (t.image σ).color = t.color := by
  cases t with
  | nil => rfl
  | node => rw [image, color_branch, color_node]

@[simp] theorem isRed_image (t : Shape) : (t.image σ).isRed = t.isRed := by
  simp [isRed]

@[simp] theorem paint_image (color : Color) (t : Shape) : (t.image σ).paint color = (t.paint color).image σ := by
  obtain rfl | ⟨c, slot, near, far, rfl⟩ := eq_nil_or_branch .left t
  · rfl
  · simp

@[simp] theorem paintChild_image (side : Side) (color : Color) (t : Shape) :
    (t.image σ).paintChild (σ.side side) color = (t.paintChild side color).image σ := by
  obtain rfl | ⟨c, slot, near, far, rfl⟩ := eq_nil_or_branch side t
  · rfl
  · simp [paintChild_branch]

@[simp] theorem paintChild_opposite_image (side : Side) (color : Color) (t : Shape) :
    (t.image σ).paintChild (σ.side side).opposite color = (t.paintChild side.opposite color).image σ := by
  rw [← σ.side_opposite, paintChild_image]

theorem rotate_branch_nil (side : Side) (color : Color) (slot : Slot) (near : Shape) :
    (branch side color slot near nil).rotate side = .error (.noChildToRaise side) := by
  cases side <;> rfl

@[simp] theorem rotate_image (side : Side) (t : Shape) :
    (t.image σ).rotate (σ.side side) = σ.outcome (Shape.image σ) (t.rotate side) := by
  obtain rfl | ⟨color, slot, near, far, rfl⟩ := eq_nil_or_branch side t
  · rfl
  obtain rfl | ⟨c, raised, inner, outer, rfl⟩ := eq_nil_or_branch side far
  · rw [rotate_branch_nil, image_branch, image_nil, rotate_branch_nil]
    rfl
  · rw [rotate_branch, image_branch, image_branch, rotate_branch]
    simp [Symmetry.outcome]

@[simp] theorem rotate_opposite_image (side : Side) (t : Shape) :
    (t.image σ).rotate (σ.side side).opposite = σ.outcome (Shape.image σ) (t.rotate side.opposite) := by
  rw [← σ.side_opposite, rotate_image]

end Shape

namespace Frame

@[simp] theorem side_image (f : Frame) : (f.image σ).side = σ.side f.side :=
  rfl

@[simp] theorem color_image (f : Frame) : (f.image σ).color = f.color :=
  rfl

@[simp] theorem slot_image (f : Frame) : (f.image σ).slot = σ.slot f.slot :=
  rfl

@[simp] theorem sibling_image (f : Frame) : (f.image σ).sibling = f.sibling.image σ :=
  rfl

@[simp] theorem close_image (f : Frame) (t : Shape) : (f.image σ).close (t.image σ) = (f.close t).image σ := by
  simp [close]

theorem lend_image (f : Frame) (x lender : Shape) (turns : Nat) :
    (f.image σ).lend (x.image σ) (lender.image σ) turns = σ.outcome (Settlement.image σ) (f.lend x lender turns) := by
  simp only [lend, image, Shape.paint_image, Shape.paintChild_opposite_image, ← Shape.image_branch, Shape.rotate_image]
  exact σ.outcome_map _ fun t => rfl

/-- The settlement of a lack looks at colours and sides only. -/
theorem settle_image (f : Frame) (x : Shape) :
    (f.image σ).settle (x.image σ) = σ.outcome (Settlement.image σ) (f.settle x) := by
  by_cases hsibling : f.sibling = .nil
  · obtain ⟨side, color, slot, sibling⟩ := f
    obtain rfl : sibling = .nil := hsibling
    rfl
  have hsibling' : (f.image σ).sibling ≠ .nil := by
    simpa [image] using hsibling
  rw [settle_eq_lend x hsibling, settle_eq_lend _ hsibling']
  simp only [sibling_image, side_image, color_image, slot_image, Shape.child_image, Shape.child_opposite_image,
    Shape.isRed_image, Shape.paint_image, Shape.paintChild_image, ← Shape.image_branch, Shape.rotate_opposite_image,
    lend_image]
  split
  · rfl
  split
  · rfl
  · exact σ.outcome_bind _ fun w => f.lend_image x w 1

end Frame

namespace Path

@[simp] theorem image_nil : Path.image σ [] = [] :=
  rfl

@[simp] theorem image_cons (f : Frame) (up : Path) : Path.image σ (f :: up) = f.image σ :: Path.image σ up :=
  rfl

@[simp] theorem fill_image (p : Path) (t : Shape) : (p.image σ).fill (t.image σ) = (p.fill t).image σ := by
  induction p generalizing t with
  | nil => rfl
  | cons f up ih => simp [ih]

theorem raise_image (up : Path) (g : Frame) (lower : Shape) (turns : Nat) :
    raise (up.image σ) (g.image σ) (lower.image σ) turns = σ.outcome (Repaired.image σ) (raise up g lower turns) := by
  simp only [raise, Frame.side_image, Frame.slot_image, Frame.sibling_image, Shape.paint_image, ← Shape.image_branch,
    Shape.rotate_opposite_image]
  refine σ.outcome_map _ fun top => ?_
  simp [Repaired.image]

theorem repairRed_image : ∀ (p : Path) (x : Shape),
    repairRed (p.image σ) (x.image σ) = σ.outcome (Repaired.image σ) (repairRed p x)
  | [], x => by
    obtain rfl | ⟨c, slot, near, far, rfl⟩ := Shape.eq_nil_or_branch .left x
    · rfl
    · simp [repairRed, Repaired.image, Symmetry.outcome]
  | [p], x => by
    rw [image_cons, image_nil, repairRed_singleton, repairRed_singleton, Frame.color_image, Frame.close_image,
      Shape.paint_image]
    split <;> rfl
  | p :: g :: up, x => by
    rw [image_cons, image_cons, repairRed_cons_cons, repairRed_cons_cons, ← image_cons, ← image_cons]
    simp only [Frame.color_image, Frame.side_image, Frame.slot_image, Frame.sibling_image, Shape.isRed_image,
      Frame.close_image, fill_image, Shape.paint_image, ← Shape.image_branch, Symmetry.side_eq_iff, Shape.rotate_image,
      raise_image]
    split
    · rfl
    split
    · rw [repairRed_image up]
      exact σ.outcome_map _ fun above => rfl
    split
    · rfl
    · exact σ.outcome_bind _ fun lower => raise_image up g lower 1

theorem afterRaising_image (up : Path) (settlement : Frame.Settlement) :
    afterRaising (up.image σ) (settlement.image σ) = (afterRaising up settlement).image σ := by
  cases settlement <;> simp [afterRaising, Frame.Settlement.image, Repaired.image]

theorem repairShort_image (p : Path) (x : Shape) :
    repairShort (p.image σ) (x.image σ) = σ.outcome (Repaired.image σ) (repairShort p x) := by
  induction p generalizing x with
  | nil => simp [repairShort, Repaired.image, Symmetry.outcome]
  | cons f up ih =>
    have hsettling (settlement : Frame.Settlement) : afterSettling (image σ up) (settlement.image σ) =
        σ.outcome (Repaired.image σ) (afterSettling up settlement) := by
      cases settlement with
      | settled t rotations => simp [afterSettling, Frame.Settlement.image, Repaired.image, Symmetry.outcome]
      | short t =>
        simp only [afterSettling, Frame.Settlement.image, ih]
        exact σ.outcome_map _ fun above => rfl
    rw [image_cons]
    have hcolor := Shape.color_image (σ := σ) x
    cases hx : x.color with
    | red =>
      rw [repairShort_of_red _ hx, repairShort_of_red _ (hcolor.trans hx), Shape.paint_image, ← image_cons, fill_image]
      rfl
    | black =>
      have hsiblings := Shape.color_image (σ := σ) f.sibling
      cases hsibling : f.sibling.color with
      | black =>
        rw [repairShort_cons_of_black up hx hsibling,
          repairShort_cons_of_black _ (hcolor.trans hx) (hsiblings.trans hsibling), Frame.settle_image]
        exact σ.outcome_bind _ hsettling
      | red =>
        obtain ⟨slot, near, far, hbranch⟩ := Shape.exists_branch_of_color_red hsibling f.side
        have hbranch' : (f.image σ).sibling =
            .branch (f.image σ).side .red (σ.slot slot) (near.image σ) (far.image σ) := by
          rw [Frame.sibling_image, hbranch, Shape.image_branch, Frame.side_image]
        let lower : Frame := { f with color := .red, sibling := near }
        let upper : Frame := ⟨f.side, .black, slot, far⟩
        have hsettle := lower.settle_image (σ := σ) x
        have hraising := afterRaising_image (σ := σ) (upper :: up)
        rw [repairShort_cons_of_red up hx hbranch, repairShort_cons_of_red _ (hcolor.trans hx) hbranch']
        exact (congrArg (Except.map _) hsettle).trans (σ.outcome_map _ hraising)

end Path

end RedBlack
