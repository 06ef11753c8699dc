import RedBlack.Proofs.Shape.Growth
import RedBlack.Proofs.Shape.Height
import RedBlack.Shape.Pruning

namespace RedBlack

namespace Frame

/-- What one round comes to at a node whose subtree on one side lacks a black
    node: either the lack is made good, or the node, painted black if it was
    red, now heads a subtree that lacks one itself. -/
def Settlement.Sound (slots : List Slot) (color : Color) (n : Nat) : Settlement → Prop
  | .settled t _ => t.Balanced (n + 1 + color.weight) ∧ t.color = color ∧ t.slots = slots
  | .short t => (t.paint .black).Balanced (n + 1) ∧ t.color = color ∧ t.slots = slots

/-- A black sibling settles the lack of its neighbour, or hands it on. -/
theorem settle_spec {f : Frame} {x : Shape} {n : Nat} (hsib : f.sibling.Balanced (n + 1))
    (hblack : f.sibling.color = .black) (hx : x.Balanced n) :
    ∃ out, f.settle x = .ok out ∧ out.Sound (f.close x).slots f.color n := by
  obtain ⟨c, slot, near, far, hsibling⟩ := Shape.exists_branch_of_balanced_succ hsib f.side
  rw [hsibling] at hsib hblack
  obtain rfl : c = .black := by simpa using hblack
  obtain ⟨hnear, hfar⟩ := (Shape.balanced_branch_black ..).mp hsib
  have hsome : f.sibling ≠ .nil := by
    rw [hsibling]
    cases f.side <;> nofun
  rw [settle_eq_lend x hsome, hsibling, Shape.child_branch_self, Shape.child_branch_opposite]
  have hslots : (f.close x).slots =
      (Shape.branch f.side f.color f.slot x (.branch f.side .black slot near far)).slots := by
    rw [close, hsibling]
  rw [hslots]
  cases hfarColor : far.color with
  | red =>
    have hfarBlack := hfar.paint_black_of_red hfarColor
    refine ⟨.settled (.branch f.side f.color slot (.branch f.side .black f.slot x near)
      (far.paint .black)) 1, ?_, ?_, ?_, ?_⟩
    · simp [Shape.isRed, hfarColor, lend, Shape.rotate_branch]
    · rw [Shape.balanced_branch]
      exact ⟨n + 1, rfl, by simp [hx, hnear], hfarBlack.1, by simp [hfarBlack.2]⟩
    · simp
    · cases f.side <;> simp [Shape.branch, Shape.slots]
  | black =>
    cases hnearColor : near.color with
    | black =>
      refine ⟨.short (.branch f.side f.color f.slot x (.branch f.side .red slot near far)),
        by simp [Shape.isRed, hfarColor, hnearColor], ?_, ?_, ?_⟩
      · simp [hx, hnear, hfar, hnearColor, hfarColor]
      · simp
      · cases f.side <;> simp [Shape.branch, Shape.slots]
    | red =>
      obtain ⟨inner, a, b, rfl⟩ := Shape.exists_branch_of_color_red hnearColor f.side
      refine ⟨.settled (.branch f.side f.color inner (.branch f.side .black f.slot x a)
        (.branch f.side .black slot b far)) 2, ?_, ?_, ?_, ?_⟩
      · simp [Shape.isRed, hfarColor, lend, Shape.rotate_branch, Shape.rotate_opposite_branch]
      · rw [Shape.balanced_branch]
        simp_all
      · simp
      · cases f.side <;> simp [Shape.branch, Shape.slots]

end Frame

namespace Path

/-- A red sibling is raised first; the round below the raised node then settles
    everything. -/
theorem repairShort_raise {f : Frame} {up : Path} {x : Shape} {n : Nat} {slot : Slot}
    {near far : Shape} (hsibling : f.sibling = .branch f.side .red slot near far)
    (hcolor : f.color = .black) (hsib : f.sibling.Balanced (n + 1)) (hup : Fits up .black (n + 2))
    (hx : x.Balanced n) (hblack : x.color = .black) :
    RepairedTo (repairShort (f :: up) x) (fill (f :: up) x).slots := by
  rw [hsibling] at hsib
  obtain ⟨hnear, hfar, hnearColor, hfarColor⟩ := (Shape.balanced_branch_red ..).mp hsib
  let lower : Frame := { f with color := .red, sibling := near }
  let upper : Frame := ⟨f.side, .black, slot, far⟩
  obtain ⟨out, hout, hsound⟩ := lower.settle_spec hnear hnearColor hx
  have hlower : (lower.close x).slots = (Shape.branch f.side .red f.slot x near).slots := rfl
  have hrun : repairShort (f :: up) x = .ok (afterRaising (upper :: up) out) := by
    rw [repairShort_cons_of_red up hblack hsibling, hout, except_map]
  have hslots (t : Shape) (ht : t.slots = (lower.close x).slots) :
      (fill (upper :: up) t).slots = (fill (f :: up) x).slots := by
    rw [fill_cons, fill_cons]
    apply slots_fill_congr
    rw [hlower] at ht
    cases hside : f.side <;> simp_all [Frame.close, Shape.branch, Shape.slots, upper]
  rw [hrun]
  cases out with
  | settled t rotations =>
    obtain ⟨ht, htcolor, htslots⟩ := hsound
    exact repairedTo_fill (p := upper :: up) ⟨hfar, by simp [upper], by simpa [upper] using hup⟩ ht
      (hslots t htslots)
  | short t =>
    obtain ⟨ht, htcolor, htslots⟩ := hsound
    exact repairedTo_fill (p := upper :: up) ⟨hfar, by simp [upper], by simpa [upper] using hup⟩ ht
      (hslots _ (by simpa using htslots))

/-- A subtree that lacks one black node is brought in line with the rest,
    wherever it hangs. The repair ends in a red-black tree with the same slots
    in the same order. -/
theorem repairShort_spec (p : Path) (x : Shape) (n : Nat) (hp : Fits p .black (n + 1))
    (hx : x.Balanced n) : RepairedTo (repairShort p x) (fill p x).slots := by
  induction p generalizing x n with
  | nil => exact ⟨_, rfl, hx.isRedBlack_paint, by simp⟩
  | cons f up ih =>
    cases hcolor : x.color with
    | red =>
      rw [repairShort_of_red _ hcolor]
      have hpaint := hx.paint_black_of_red hcolor
      exact repairedTo_fill (by rwa [hpaint.2]) hpaint.1 (slots_fill_congr _ (by simp))
    | black =>
      obtain ⟨hsib, hred, hup⟩ := hp
      obtain ⟨c, slot, near, far, hsibling⟩ := Shape.exists_branch_of_balanced_succ hsib f.side
      cases c with
      | red =>
        have hfcolor : f.color = .black := by
          cases hf : f.color with
          | black => rfl
          | red => exact absurd (hred hf).2 (by simp [hsibling])
        exact repairShort_raise hsibling hfcolor hsib (by simpa [hfcolor] using hup) hx hcolor
      | black =>
        obtain ⟨out, hout, hsound⟩ := f.settle_spec hsib (by simp [hsibling]) hx
        have hrun : repairShort (f :: up) x = afterSettling up out := by
          rw [repairShort_cons_of_black up hcolor (by simp [hsibling]), hout, ok_bind]
        rw [hrun]
        cases out with
        | settled t rotations =>
          obtain ⟨ht, htcolor, htslots⟩ := hsound
          exact repairedTo_fill (by rwa [htcolor]) ht (slots_fill_congr up htslots)
        | short t =>
          obtain ⟨ht, htcolor, htslots⟩ := hsound
          have hslots : (fill (f :: up) x).slots = (fill up t).slots :=
            slots_fill_congr up htslots.symm
          rw [hslots]
          apply RepairedTo.passedOn
          cases hfcolor : f.color with
          | black =>
            rw [hfcolor] at htcolor hup
            rw [Shape.paint_of_color_eq htcolor] at ht
            exact ih t (n + 1) hup ht
          | red =>
            rw [hfcolor] at htcolor hup
            rw [repairShort_of_red _ htcolor]
            have hpaint : (t.paint .black).color = .black := by cases t <;> simp_all [Shape.paint, Shape.color]
            exact repairedTo_fill (by rw [hpaint]; exact hup.black) ht (slots_fill_congr up (by simp))

/-- Closing a gap restores the rules that held while the node was there. -/
theorem closeGap_spec {p : Path} {removed : Color} {x : Shape} {n : Nat} (hx : x.Balanced n)
    (hp : Fits p removed (n + removed.weight)) (hred : removed = .red → x.color = .black) :
    RepairedTo (p.closeGap removed x) (fill p x).slots := by
  cases removed with
  | red => exact repairedTo_fill (by rw [hred rfl]; exact hp.black) hx rfl
  | black => exact repairShort_spec p x n hp hx

end Path

namespace Shape

/-- The leftmost node of a shape lies at the end of a way that passes nothing on
    the left. -/
theorem zoomExtreme_left {t : Shape} (ht : t ≠ .nil) (up : Path) :
    ∃ inner color slot rest, t.zoomExtreme .left up = some (inner ++ up, color, slot, rest) ∧
      Path.fill inner (.node color .nil slot rest) = t ∧ Path.slotsBefore inner = [] := by
  induction t generalizing up with
  | nil => exact absurd rfl ht
  | node color left slot right ihl ihr =>
    cases left with
    | nil => exact ⟨[], color, slot, right, by simp [zoomExtreme], rfl, rfl⟩
    | node c l s r =>
      obtain ⟨inner, c', s', rest, hzoom, hfill, hbefore⟩ :=
        ihl (by simp) (⟨.left, color, slot, right⟩ :: up)
      refine ⟨inner ++ [⟨.left, color, slot, right⟩], c', s', rest, ?_, ?_, ?_⟩
      · rw [zoomExtreme, hzoom]
        simp
      · rw [Path.fill_append, hfill]
        rfl
      · simp [Path.slotsBefore_append, Path.slotsBefore_cons, hbefore]

/-- What is left where a node is taken out of a red-black tree: a subtree at the
    end of a path, from where a node of the given colour is gone. Colours do not
    depend on slots, so the heir of the node may take its place at once. -/
structure LeavesGap (t : Shape) (slot : Slot) (p : Path) (removed : Color) (x : Shape) : Prop where
  unlinks : t.unlink slot = p.closeGap removed x
  /-- The rules hold but for the colour that is gone. -/
  fits : ∃ n, x.Balanced n ∧ p.Fits removed (n + removed.weight)
  black : removed = .red → x.color = .black
  /-- A node was there before. -/
  depth : p.length < t.height

theorem LeavesGap.repairedTo {t : Shape} {slot : Slot} {p : Path} {removed : Color} {x : Shape}
    (h : t.LeavesGap slot p removed x) : RepairedTo (t.unlink slot) (p.fill x).slots := by
  obtain ⟨n, hx, hfits⟩ := h.fits
  rw [h.unlinks]
  exact Path.closeGap_spec hx hfits h.black

/-- Taking a node out leaves a gap in its place or, where it has two children,
    in the place of its successor. -/
theorem exists_leavesGap {t : Shape} {slot : Slot} {before after : List Slot} (hshape : t.IsRedBlack)
    (hnodup : t.slots.Nodup) (hslots : t.slots = before ++ slot :: after) :
    ∃ p removed x, t.LeavesGap slot p removed x ∧ (p.fill x).slots = before ++ after := by
  have hmem : slot ∈ t.slots := by simp [hslots]
  obtain ⟨p, color, left, right, hzoom, hfill⟩ := exists_zoom hmem
  obtain ⟨rfl, rfl⟩ := slots_around hnodup hfill hslots
  have hdepth : p.length + (node color left slot right).height ≤ t.height := by
    rw [← hfill]
    exact p.length_add_height_le _
  rw [height] at hdepth
  rw [← hfill] at hshape
  obtain ⟨_, ⟨n, rfl, hleft, hright, hred⟩, hfits⟩ := Path.isRedBlack_fill.mp hshape
  rw [color_node] at hfits
  by_cases hl : left = .nil
  · subst hl
    refine ⟨p, color, right, ⟨?_, ⟨n, hright, hfits⟩, fun hc => (hred hc).2, by omega⟩, ?_⟩
    · rw [unlink, hzoom]
    · simp [Path.slots_fill, slots]
  by_cases hr : right = .nil
  · subst hr
    refine ⟨p, color, left, ⟨?_, ⟨n, hleft, hfits⟩, fun hc => (hred hc).1, by omega⟩, ?_⟩
    · rw [unlink, hzoom]
      cases left with
      | nil => exact absurd rfl hl
      | node => rfl
    · simp [Path.slots_fill, slots]
  · obtain ⟨inner, removed, heir, rest, hextreme, hinner, hbefore⟩ := zoomExtreme_left hr []
    let outer : Path := ⟨.right, color, heir, left⟩ :: p
    have hwhole : (Path.fill (inner ++ outer) (.node removed .nil heir rest)).IsRedBlack := by
      rw [Path.fill_append, hinner]
      exact Path.Fits.isRedBlack (t := node color left heir right) hfits ⟨n, rfl, hleft, hright, hred⟩
    obtain ⟨_, ⟨m, rfl, _, hrest, hremoved⟩, hgap⟩ := Path.isRedBlack_fill.mp hwhole
    rw [color_node] at hgap
    have hinnerDepth : inner.length + (node removed .nil heir rest).height ≤ right.height := by
      rw [← hinner]
      exact inner.length_add_height_le _
    rw [height] at hinnerDepth
    refine ⟨inner ++ outer, removed, rest, ⟨?_, ⟨m, hrest, hgap⟩, fun hc => (hremoved hc).2, ?_⟩, ?_⟩
    · rw [unlink, hzoom]
      cases left with
      | nil => exact absurd rfl hl
      | node =>
        cases right with
        | nil => exact absurd rfl hr
        | node => simp only [hextreme, List.append_nil, outer]
    · rw [List.length_append, List.length_cons]
      omega
    · rw [Path.slots_fill, ← hinner, Path.slots_fill]
      simp [Path.slotsBefore_append, Path.slotsAfter_append, Path.slotsBefore_cons,
        Path.slotsAfter_cons, hbefore, slots, outer]

/-- Taking a node out of a red-black tree leaves a red-black tree of the other
    slots in order. -/
theorem unlink_spec {t : Shape} {slot : Slot} {before after : List Slot} (hshape : t.IsRedBlack)
    (hnodup : t.slots.Nodup) (hslots : t.slots = before ++ slot :: after) :
    RepairedTo (t.unlink slot) (before ++ after) := by
  obtain ⟨p, removed, x, hgap, hrest⟩ := exists_leavesGap hshape hnodup hslots
  rw [← hrest]
  exact hgap.repairedTo

end Shape

end RedBlack
