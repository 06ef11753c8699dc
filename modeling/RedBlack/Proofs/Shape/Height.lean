import Mathlib.Algebra.Group.Nat.Defs
import RedBlack.Proofs.Shape.Balance

namespace RedBlack

theorem Frame.height_close_le (f : Frame) (t : Shape) : t.height + 1 ≤ (f.close t).height := by
  obtain ⟨side, color, slot, sibling⟩ := f
  cases side <;> simp only [close, Shape.branch, Shape.height] <;> omega

/-- A way down and what hangs at its end are not higher than the whole. -/
theorem Path.length_add_height_le (p : Path) (t : Shape) : p.length + t.height ≤ (p.fill t).height := by
  induction p generalizing t with
  | nil => simp
  | cons f up ih =>
    have hclose := f.height_close_le t
    have hup := ih (f.close t)
    rw [fill_cons, List.length_cons]
    omega

namespace Shape

/-- A way down has at most one red node in front of each black one and of its
    end, so that the longest way down is at most twice as long as the shortest
    one. -/
theorem Balanced.height_le {t : Shape} {n : Nat} (h : t.Balanced n) : t.height + t.color.weight ≤ 2 * n + 1 := by
  induction t generalizing n with
  | nil =>
    obtain rfl : n = 0 := h
    exact Nat.le_refl 1
  | node color left slot right ihl ihr =>
    obtain ⟨m, rfl, hleft, hright, hred⟩ := h
    have hl := ihl hleft
    have hr := ihr hright
    cases color with
    | black =>
      simp only [height, color_node, Color.weight_black]
      omega
    | red =>
      obtain ⟨hlblack, hrblack⟩ := hred rfl
      simp only [hlblack, hrblack, Color.weight_black] at hl hr
      simp only [height, color_node, Color.weight_red]
      omega

/-- Down to `n` black nodes a shape is full, and so it has many nodes for its
    height. -/
theorem Balanced.two_pow_le {t : Shape} {n : Nat} (h : t.Balanced n) : 2 ^ n ≤ t.size + 1 := by
  induction t generalizing n with
  | nil =>
    obtain rfl : n = 0 := h
    exact Nat.le_refl 1
  | node color left slot right ihl ihr =>
    obtain ⟨m, rfl, hleft, hright, _⟩ := h
    have hl := ihl hleft
    have hr := ihr hright
    cases color with
    | black =>
      rw [Color.weight_black, Nat.pow_succ, size]
      omega
    | red =>
      rw [Color.weight_red, Nat.add_zero, size]
      omega

/-- The height of a red-black tree grows with the logarithm of its size. -/
theorem IsRedBlack.two_pow_height_le {t : Shape} (h : t.IsRedBlack) : 2 ^ t.height ≤ (t.size + 1) ^ 2 := by
  obtain ⟨hblack, n, hbalanced⟩ := h
  have hheight := hbalanced.height_le
  rw [hblack, Color.weight_black] at hheight
  calc 2 ^ t.height ≤ 2 ^ (n * 2) := Nat.pow_le_pow_right Nat.two_pos (by omega)
    _ = (2 ^ n) ^ 2 := Nat.pow_mul 2 n 2
    _ ≤ (t.size + 1) ^ 2 := Nat.pow_le_pow_left hbalanced.two_pow_le 2

end Shape

end RedBlack
