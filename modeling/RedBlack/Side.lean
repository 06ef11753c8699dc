namespace RedBlack

inductive Side where
  | left
  | right
  deriving DecidableEq, Repr

namespace Side

/-- The other side. What a tree does on one side it does on the other with the
    sides exchanged, so most definitions take the side as an argument. -/
def opposite : Side → Side
  | left => right
  | right => left

@[simp] theorem opposite_left : opposite left = right := rfl

@[simp] theorem opposite_right : opposite right = left := rfl

@[simp] theorem opposite_opposite (s : Side) : s.opposite.opposite = s := by
  cases s <;> rfl

theorem opposite_ne (s : Side) : s.opposite ≠ s := by
  cases s <;> nofun

end Side

end RedBlack
