import RedBlack.Shape.Rotation

namespace RedBlack

/-- How many black nodes a node of this colour adds to the ways through it. -/
def Color.weight : Color → Nat
  | .red => 0
  | .black => 1

@[simp] theorem Color.weight_red : Color.red.weight = 0 :=
  rfl

@[simp] theorem Color.weight_black : Color.black.weight = 1 :=
  rfl

namespace Shape

/-- No red node has a red child, and all ways down to a missing child cross `n`
    black nodes. -/
def Balanced : Shape → Nat → Prop
  | nil, n => n = 0
  | node color left _ right, n =>
    ∃ m, n = m + color.weight ∧ left.Balanced m ∧ right.Balanced m ∧
      (color = .red → left.color = .black ∧ right.color = .black)

/-- A red-black tree: balanced, and with a black root. -/
def IsRedBlack (t : Shape) : Prop :=
  t.color = .black ∧ ∃ n, t.Balanced n

@[simp] theorem balanced_nil (n : Nat) : nil.Balanced n ↔ n = 0 :=
  Iff.rfl

theorem balanced_branch (side : Side) (color : Color) (slot : Slot) (near far : Shape) (n : Nat) :
    (branch side color slot near far).Balanced n ↔
      ∃ m, n = m + color.weight ∧ near.Balanced m ∧ far.Balanced m ∧
        (color = .red → near.color = .black ∧ far.color = .black) := by
  cases side with
  | left => rfl
  | right =>
    simp only [branch, Balanced]
    constructor <;> rintro ⟨m, hn, hl, hr, hred⟩ <;>
      exact ⟨m, hn, hr, hl, fun h => (hred h).symm⟩

@[simp] theorem balanced_branch_black (side : Side) (slot : Slot) (near far : Shape) (n : Nat) :
    (branch side .black slot near far).Balanced (n + 1) ↔ near.Balanced n ∧ far.Balanced n := by
  simp [balanced_branch]

@[simp] theorem balanced_branch_red (side : Side) (slot : Slot) (near far : Shape) (n : Nat) :
    (branch side .red slot near far).Balanced n ↔
      near.Balanced n ∧ far.Balanced n ∧ near.color = .black ∧ far.color = .black := by
  simp [balanced_branch]

@[simp] theorem color_node (color : Color) (left right : Shape) (slot : Slot) :
    (node color left slot right).color = color :=
  rfl

@[simp] theorem color_branch (side : Side) (color : Color) (slot : Slot) (near far : Shape) :
    (branch side color slot near far).color = color := by
  cases side <;> rfl

@[simp] theorem paint_branch (side : Side) (c color : Color) (slot : Slot) (near far : Shape) :
    (branch side color slot near far).paint c = branch side c slot near far := by
  cases side <;> rfl

theorem branch_opposite (side : Side) (color : Color) (slot : Slot) (near far : Shape) :
    branch side.opposite color slot near far = branch side color slot far near := by
  cases side <;> rfl

theorem eq_nil_or_branch (side : Side) (t : Shape) :
    t = nil ∨ ∃ color slot near far, t = branch side color slot near far := by
  cases t with
  | nil => exact .inl rfl
  | node color left slot right =>
    cases side with
    | left => exact .inr ⟨color, slot, left, right, rfl⟩
    | right => exact .inr ⟨color, slot, right, left, rfl⟩

theorem exists_branch_of_color_red {t : Shape} (h : t.color = .red) (side : Side) :
    ∃ slot near far, t = branch side .red slot near far := by
  obtain rfl | ⟨c, slot, near, far, rfl⟩ := eq_nil_or_branch side t
  · cases h
  · obtain rfl : c = .red := by simpa using h
    exact ⟨slot, near, far, rfl⟩

/-- A shape with a black node on every way down is a node, seen from either
    side. -/
theorem exists_branch_of_balanced_succ {t : Shape} {n : Nat} (h : t.Balanced (n + 1)) (side : Side) :
    ∃ color slot near far, t = branch side color slot near far := by
  obtain rfl | hbranch := eq_nil_or_branch side t
  · cases h
  · exact hbranch

theorem isRed_iff {t : Shape} : t.isRed = true ↔ t.color = .red := by
  simp [isRed]

theorem color_eq_black_iff {t : Shape} : t.color = .black ↔ ¬ t.isRed = true := by
  cases h : t.color <;> simp [isRed, h]

theorem paint_of_color_eq {t : Shape} {c : Color} (h : t.color = c) : t.paint c = t := by
  cases t with
  | nil => rfl
  | node => simp_all [paint, color]

/-- Painting a red root black makes all ways longer by one black node. -/
theorem Balanced.paint_black_of_red {t : Shape} {n : Nat} (h : t.Balanced n) (hred : t.color = .red) :
    (t.paint .black).Balanced (n + 1) ∧ (t.paint .black).color = .black := by
  obtain ⟨slot, near, far, rfl⟩ := exists_branch_of_color_red hred .left
  simp_all

theorem Balanced.isRedBlack_paint {t : Shape} {n : Nat} (h : t.Balanced n) :
    (t.paint .black).IsRedBlack := by
  cases hcolor : t.color with
  | red => exact ⟨(h.paint_black_of_red hcolor).2, _, (h.paint_black_of_red hcolor).1⟩
  | black =>
    rw [paint_of_color_eq hcolor]
    exact ⟨hcolor, _, h⟩

/-- Turning a node down to a side raises its child on the other side. -/
theorem rotate_branch (side : Side) (c d : Color) (s r : Slot) (near inner outer : Shape) :
    (branch side c s near (branch side d r inner outer)).rotate side =
      .ok (branch side d r (branch side c s near inner) outer) := by
  cases side <;> rfl

theorem rotate_opposite_branch (side : Side) (c d : Color) (s r : Slot) (outer inner far : Shape) :
    (branch side c s (branch side d r outer inner) far).rotate side.opposite =
      .ok (branch side d r outer (branch side c s inner far)) := by
  cases side <;> rfl

/-- The slots of a node, whatever side it is seen from, are those of the same
    node with other subtrees that have the same slots. -/
theorem slots_branch_congr {side : Side} {c d : Color} {slot : Slot} {a b near far : Shape}
    (hnear : a.slots = near.slots) (hfar : b.slots = far.slots) :
    (branch side c slot a b).slots = (branch side d slot near far).slots := by
  cases side <;> simp [hnear, hfar]

end Shape

namespace Path

/-- A subtree of the given colour and black height fits the hole: the whole is a
    red-black tree. What surrounds a subtree keeps the rules as long as the
    subtree has a fitting colour and height. -/
def Fits : Path → Color → Nat → Prop
  | [], color, _ => color = .black
  | f :: up, color, n =>
    f.sibling.Balanced n ∧ (f.color = .red → color = .black ∧ f.sibling.color = .black) ∧
      Fits up f.color (n + f.color.weight)

theorem Fits.black {p : Path} {c : Color} {n : Nat} (h : p.Fits c n) : p.Fits .black n := by
  cases p with
  | nil => rfl
  | cons f up => exact ⟨h.1, fun hred => ⟨rfl, (h.2.1 hred).2⟩, h.2.2⟩

theorem isRedBlack_fill {p : Path} {t : Shape} :
    (p.fill t).IsRedBlack ↔ ∃ n, t.Balanced n ∧ p.Fits t.color n := by
  induction p generalizing t with
  | nil =>
    simp only [fill_nil, Shape.IsRedBlack, Fits]
    exact ⟨fun ⟨hc, n, h⟩ => ⟨n, h, hc⟩, fun ⟨n, h, hc⟩ => ⟨hc, n, h⟩⟩
  | cons f up ih =>
    rw [fill_cons, ih]
    simp only [Frame.close, Shape.balanced_branch, Shape.color_branch, Fits]
    constructor
    · rintro ⟨_, ⟨n, rfl, ht, hsibling, hred⟩, hup⟩
      exact ⟨n, ht, hsibling, hred, hup⟩
    · rintro ⟨n, ht, hsibling, hred, hup⟩
      exact ⟨_, ⟨n, rfl, ht, hsibling, hred⟩, hup⟩

theorem Fits.isRedBlack {p : Path} {t : Shape} {n : Nat} (h : p.Fits t.color n) (ht : t.Balanced n) :
    (p.fill t).IsRedBlack :=
  isRedBlack_fill.mpr ⟨n, ht, h⟩

end Path

end RedBlack
