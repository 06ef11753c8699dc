import RedBlack.Proofs.Action
import RedBlack.Proofs.Shape.Holes
import RedBlack.Proofs.Shape.Rounds

namespace RedBlack

/-- A repair that succeeds leaves a red-black tree with the given slots in
    order. -/
def RepairedTo (result : Except Fault Repaired) (slots : List Slot) : Prop :=
  ∃ r, result = .ok r ∧ r.shape.IsRedBlack ∧ r.shape.slots = slots

theorem RepairedTo.passedOn {result : Except Fault Repaired} {slots : List Slot} (h : RepairedTo result slots) :
    RepairedTo (result.map Repaired.passedOn) slots := by
  obtain ⟨r, rfl, hshape, hslots⟩ := h
  exact ⟨_, rfl, hshape, hslots⟩

namespace Path

theorem slots_fill_congr (p : Path) {t u : Shape} (h : t.slots = u.slots) :
    (fill p t).slots = (fill p u).slots := by
  rw [slots_fill, slots_fill, h]

theorem repairedTo_fill {p : Path} {t : Shape} {n : Nat} {slots : List Slot} {rounds : List Round}
    (hp : Fits p t.color n) (ht : t.Balanced n) (hslots : (fill p t).slots = slots) :
    RepairedTo (.ok { shape := fill p t, rounds }) slots :=
  ⟨_, rfl, hp.isRedBlack ht, hslots⟩

/-- Painting the root once more changes nothing where the root is black
    already. -/
theorem repairedTo_paint_fill {p : Path} {t : Shape} {n : Nat} {slots : List Slot}
    {rounds : List Round} (hp : Fits p t.color n) (ht : t.Balanced n)
    (hslots : (fill p t).slots = slots) :
    RepairedTo (.ok { shape := (fill p t).paint .black, rounds }) slots := by
  rw [Shape.paint_of_color_eq (hp.isRedBlack ht).1]
  exact repairedTo_fill hp ht hslots

/-- Under a black grandparent and beside a black uncle, one or two rotations end
    the repair. -/
theorem repairRed_turn {p g : Frame} {up : Path} {x : Shape} {n : Nat}
    (hp : p.color = .red) (hg : g.color = .black) (hpsib : p.sibling.Balanced n)
    (hpblack : p.sibling.color = .black) (hgsib : g.sibling.Balanced n)
    (hgblack : g.sibling.color = .black) (hup : Fits up .black (n + 1)) (hx : x.Balanced n)
    (hred : x.color = .red) :
    RepairedTo (repairRed (p :: g :: up) x) (fill (p :: g :: up) x).slots := by
  obtain ⟨gside, gcolor, gslot, gsibling⟩ := g
  obtain ⟨pside, pcolor, pslot, psibling⟩ := p
  obtain rfl : gcolor = .black := hg
  obtain rfl : pcolor = .red := hp
  have huncle : ¬ gsibling.isRed = true := Shape.color_eq_black_iff.mp hgblack
  by_cases hside : pside = gside
  · subst hside
    let top := Shape.branch pside .black pslot x (Shape.branch pside .red gslot psibling gsibling)
    have hrun : repairRed (⟨pside, .red, pslot, psibling⟩ :: ⟨pside, .black, gslot, gsibling⟩ :: up) x =
        .ok { shape := (fill up top).paint .black, rounds := [{ rotations := 1 }] } := by
      rw [repairRed_cons_cons, if_neg (by simp), if_neg huncle, if_pos rfl, raise, Frame.close, Shape.paint_branch,
        Shape.rotate_opposite_branch]
      rfl
    rw [hrun]
    apply repairedTo_paint_fill (n := n + 1) (by simpa [top] using hup) (by simp_all [top])
    apply slots_fill_congr
    cases pside <;> simp [top, Frame.close, Shape.branch, Shape.slots]
  · obtain rfl : pside = gside.opposite := by cases pside <;> cases gside <;> simp_all
    obtain ⟨xslot, a, b, rfl⟩ := Shape.exists_branch_of_color_red hred gside
    let top := Shape.branch gside .black xslot (Shape.branch gside .red pslot psibling a)
      (Shape.branch gside .red gslot b gsibling)
    have hrun : repairRed (⟨gside.opposite, .red, pslot, psibling⟩ :: ⟨gside, .black, gslot, gsibling⟩ :: up)
          (Shape.branch gside .red xslot a b) =
        .ok { shape := (fill up top).paint .black, rounds := [{ rotations := 2 }] } := by
      rw [repairRed_cons_cons, if_neg (by simp), if_neg huncle, if_neg hside, Frame.close, Shape.branch_opposite,
        Shape.rotate_branch, ok_bind, raise, Shape.paint_branch, Shape.rotate_opposite_branch]
      rfl
    rw [hrun]
    apply repairedTo_paint_fill (n := n + 1) (by simpa [top] using hup) (by simp_all [top])
    apply slots_fill_congr
    cases gside <;> simp [top, Frame.close, Shape.branch, Shape.slots]

/-- A balanced red subtree in a hole made for a black one is mended, however
    many red parents are in its way. The repair ends in a red-black tree with
    the same slots in the same order. -/
theorem repairRed_spec : ∀ (p : Path) (x : Shape) (n : Nat), Fits p .black n → x.Balanced n →
    x.color = .red → RepairedTo (repairRed p x) (fill p x).slots
  | [], x, n, _, hx, hred =>
    ⟨_, repairRed_nil (Shape.ne_nil_of_red (Shape.isRed_iff.mpr hred)), hx.isRedBlack_paint, by simp⟩
  | [p], x, n, hp, hx, _ => by
    have hblack : p.color = .black := hp.2.2
    rw [repairRed_singleton, if_pos hblack]
    exact repairedTo_paint_fill (p := [p]) ⟨hp.1, by simp [hblack], hp.2.2⟩ hx rfl
  | p :: g :: up, x, n, hp, hx, hred => by
    obtain ⟨hpsib, hpred, hgsib, hgred, hup⟩ := hp
    cases hpcolor : p.color with
    | black =>
      rw [repairRed_cons_cons, if_pos hpcolor]
      exact repairedTo_paint_fill ⟨hpsib, by simp [hpcolor], hgsib, hgred, hup⟩ hx rfl
    | red =>
      have hgcolor : g.color = .black := by
        cases hg : g.color with
        | black => rfl
        | red => exact absurd (hgred hg).1 (by simp [hpcolor])
      simp only [hpcolor, hgcolor, Color.weight_red, Color.weight_black, Nat.add_zero] at hgsib hup
      cases huncle : g.sibling.color with
      | black => exact repairRed_turn hpcolor hgcolor hpsib (hpred hpcolor).2 hgsib huncle hup hx hred
      | red =>
        rw [repairRed_cons_cons, if_neg (by simp [hpcolor]), if_pos (Shape.isRed_iff.mpr huncle)]
        have hsib := hgsib.paint_black_of_red huncle
        have hbelow : ((p.close x).paint .black).Balanced (n + 1) := by
          simp [Frame.close, hx, hpsib]
        let top := Frame.close { g with color := .red, sibling := g.sibling.paint .black }
          ((p.close x).paint .black)
        have htop : top.Balanced (n + 1) := by
          simp only [top, Frame.close, Shape.balanced_branch_red] at hbelow ⊢
          exact ⟨hbelow, hsib.1, by simp, hsib.2⟩
        have hslots : (fill (p :: g :: up) x).slots = (fill up top).slots := by
          rw [fill_cons, fill_cons]
          exact slots_fill_congr up (Shape.slots_branch_congr (by simp) (by simp))
        rw [hslots]
        exact (repairRed_spec up top (n + 1) hup htop (by simp [top, Frame.close])).passedOn

end Path

namespace Shape

/-- A node hung into a missing child of a red-black tree comes between the slots
    around that child. -/
theorem attach_spec {p : Path} (slot : Slot) (hshape : (p.fill .nil).IsRedBlack)
    (hnodup : (p.fill .nil).slots.Nodup) :
    RepairedTo ((p.fill .nil).attach slot p.place) (p.slotsBefore ++ slot :: p.slotsAfter) := by
  obtain ⟨n, hn, hfits⟩ := Path.isRedBlack_fill.mp hshape
  have hslots : (p.fill (leaf .red slot)).slots = p.slotsBefore ++ slot :: p.slotsAfter := by
    simp [Path.slots_fill, leaf, slots]
  rw [attach_place slot hnodup, ← hslots]
  obtain rfl : n = 0 := hn
  exact Path.repairRed_spec p _ 0 hfits (by simp [leaf, Balanced, color]) rfl

end Shape

end RedBlack
