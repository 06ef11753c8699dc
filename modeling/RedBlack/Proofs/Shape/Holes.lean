import Mathlib.Data.List.Induction
import RedBlack.Proofs.Shape.Zoom
import RedBlack.Shape.Growth

namespace RedBlack

namespace Path

/-- The place at the end of a path, as an insertion names it. Between two
    neighbouring slots, before the first and after the last there is exactly one
    such place where a child is missing. -/
def place : Path → Place
  | [] => .root
  | f :: _ => .under f.slot f.side

theorem fill_eq_nil {p : Path} {t : Shape} (h : fill p t = .nil) : p = [] ∧ t = .nil := by
  induction p generalizing t with
  | nil => exact ⟨rfl, h⟩
  | cons f up ih =>
    have hclose := (ih h).2
    cases hside : f.side <;> simp [Frame.close, Shape.branch, hside] at hclose

theorem slotsBefore_append (p q : Path) : slotsBefore (p ++ q) = slotsBefore q ++ slotsBefore p := by
  induction p with
  | nil => simp
  | cons f up ih => simp [slotsBefore_cons, ih]

theorem slotsAfter_append (p q : Path) : slotsAfter (p ++ q) = slotsAfter p ++ slotsAfter q := by
  induction p with
  | nil => simp
  | cons f up ih => simp [slotsAfter_cons, ih]

theorem slot_mem_slots_fill {p : Path} {f : Frame} (t : Shape) (hf : f ∈ p) : f.slot ∈ (fill p t).slots := by
  induction p generalizing t with
  | nil => cases hf
  | cons g up ih =>
    obtain rfl | hf := List.mem_cons.mp hf
    · rw [fill_cons, slots_fill]
      cases hside : f.side <;> simp [Frame.close, Shape.branch, hside, Shape.slots]
    · exact ih _ hf

/-- A way down to a missing child is determined by the slots it passes on the
    left: a second one at this place of the order would have to be the same. -/
theorem eq_of_slotsBefore_eq {p q : Path} (hfill : fill p .nil = fill q .nil)
    (hbefore : slotsBefore p = slotsBefore q) : p = q := by
  induction p using List.reverseRecOn generalizing q with
  | nil =>
    exact (fill_eq_nil hfill.symm).1.symm
  | append_singleton p f ih =>
    induction q using List.reverseRecOn with
    | nil => exact (fill_eq_nil hfill).1
    | append_singleton q g =>
      have hp := slots_fill p .nil
      have hq := slots_fill q .nil
      obtain ⟨fside, fcolor, fslot, fsibling⟩ := f
      obtain ⟨gside, gcolor, gslot, gsibling⟩ := g
      simp only [fill_append, fill_cons, fill_nil] at hfill
      simp only [slotsBefore_append, slotsBefore_cons, slotsBefore_nil] at hbefore
      cases fside <;> cases gside <;>
        simp only [Frame.close, Shape.branch, Shape.node.injEq] at hfill <;>
        obtain ⟨rfl, hl, rfl, hr⟩ := hfill
      · rw [ih hl (by simpa using hbefore), hr]
      · have hlen := congrArg List.length hbefore
        have hsub := congrArg (fun t => t.slots.length) hl
        simp only [hp] at hsub
        simp at hlen hsub
        omega
      · have hlen := congrArg List.length hbefore
        have hsub := congrArg (fun t => t.slots.length) hl
        simp only [hq] at hsub
        simp at hlen hsub
        omega
      · rw [ih hr (by simpa [hl] using hbefore), hl]

/-- Of two ways down to missing children the one that turns left wherever the
    other does ends no further to the right. -/
theorem length_slotsBefore_le {p q : Path} (hfill : fill p .nil = fill q .nil)
    (hturns : ∀ f ∈ p, ∀ g ∈ q, f.slot = g.slot → g.side = .left → f.side = .left) :
    p.slotsBefore.length ≤ q.slotsBefore.length := by
  induction p using List.reverseRecOn generalizing q with
  | nil => exact Nat.zero_le _
  | append_singleton p f ih =>
    induction q using List.reverseRecOn with
    | nil =>
      have hnil := (fill_eq_nil hfill).1
      simp at hnil
    | append_singleton q g =>
      have hp := slots_fill p .nil
      have hinner (f' : Frame) (hf : f' ∈ p) (g' : Frame) (hg : g' ∈ q) := hturns f' (by simp [hf]) g' (by simp [hg])
      have houter := hturns f (by simp) g (by simp)
      obtain ⟨fside, fcolor, fslot, fsibling⟩ := f
      obtain ⟨gside, gcolor, gslot, gsibling⟩ := g
      simp only [fill_append, fill_cons, fill_nil] at hfill
      simp only [slotsBefore_append, slotsBefore_cons, slotsBefore_nil]
      cases fside <;> cases gside <;>
        simp only [Frame.close, Shape.branch, Shape.node.injEq] at hfill <;>
        obtain ⟨rfl, hl, rfl, hr⟩ := hfill
      · simpa using ih hl hinner
      · have hsub := congrArg (fun t => t.slots.length) hl
        simp only [hp] at hsub
        simp at hsub ⊢
        omega
      · cases houter rfl rfl
      · simpa [hl] using ih hr hinner

end Path

namespace Shape

/-- Every split of the slots in order belongs to a missing child. -/
theorem exists_hole_below (t : Shape) (up : Path) {before after : List Slot}
    (hslots : t.slots = before ++ after) :
    ∃ p : Path, p.fill .nil = up.fill t ∧ p.slotsBefore = up.slotsBefore ++ before ∧
      p.slotsAfter = after ++ up.slotsAfter := by
  induction t generalizing up before after with
  | nil =>
    obtain ⟨rfl, rfl⟩ : before = [] ∧ after = [] := by simpa [slots] using hslots.symm
    exact ⟨up, rfl, by simp, by simp⟩
  | node color left s right ihl ihr =>
    obtain ⟨middle, hbefore, hright⟩ | ⟨middle, hleft, hafter⟩ :=
      List.append_eq_append_iff.mp (hslots : left.slots ++ s :: right.slots = before ++ after)
    · cases middle with
      | nil =>
        obtain ⟨p, hfill, hb, ha⟩ := ihl (⟨.left, color, s, right⟩ :: up) (List.append_nil left.slots).symm
        obtain rfl : s :: right.slots = after := hright
        refine ⟨p, hfill, ?_, ?_⟩
        · simpa [Path.slotsBefore_cons, hbefore] using hb
        · simpa [Path.slotsAfter_cons] using ha
      | cons first rest =>
        obtain ⟨rfl, hrest⟩ : s = first ∧ right.slots = rest ++ after := by simpa using hright
        obtain ⟨p, hfill, hb, ha⟩ := ihr (⟨.right, color, s, left⟩ :: up) hrest
        refine ⟨p, hfill, ?_, ?_⟩
        · simpa [Path.slotsBefore_cons, hbefore] using hb
        · simpa [Path.slotsAfter_cons] using ha
    · obtain ⟨p, hfill, hb, ha⟩ := ihl (⟨.left, color, s, right⟩ :: up) hleft
      refine ⟨p, hfill, ?_, ?_⟩
      · simpa [Path.slotsBefore_cons] using hb
      · simpa [Path.slotsAfter_cons, hafter] using ha

theorem exists_hole {t : Shape} {before after : List Slot} (hslots : t.slots = before ++ after) :
    ∃ p : Path, p.fill .nil = t ∧ p.slotsBefore = before ∧ p.slotsAfter = after := by
  simpa using exists_hole_below t [] hslots

/-- A place is free if it is the root of an empty shape or a missing child. -/
def Free (t : Shape) : Place → Prop
  | .root => t = .nil
  | .under parent side => t.vacant? side parent = some true

instance (t : Shape) (place : Place) : Decidable (t.Free place) := by
  cases place <;> unfold Free <;> infer_instance

theorem vacant?_fill_cons {f : Frame} {up : Path} (hnodup : (Path.fill (f :: up) .nil).slots.Nodup) :
    (Path.fill (f :: up) .nil).vacant? f.side f.slot = some true := by
  obtain ⟨side, color, slot, sibling⟩ := f
  cases side <;> simp only [Path.fill_cons, Frame.close, branch] at hnodup ⊢ <;>
    simp [vacant?, Path.zoom_fill_node hnodup, child]

theorem free_place {p : Path} (hnodup : (p.fill .nil).slots.Nodup) : (p.fill .nil).Free p.place := by
  cases p with
  | nil => rfl
  | cons f up => exact vacant?_fill_cons hnodup

theorem exists_path_of_free {t : Shape} {place : Place} (h : t.Free place) :
    ∃ p : Path, p.fill .nil = t ∧ p.place = place := by
  cases place with
  | root => exact ⟨[], h.symm, rfl⟩
  | under parent side =>
    obtain ⟨⟨path, found⟩, hzoom, hvacant⟩ := Option.map_eq_some_iff.mp h
    have hslot := slot?_zoom hzoom
    have hfill := fill_zoom hzoom
    have hchild : found.child side = .nil := by simpa using hvacant
    cases found with
    | nil => cases hslot
    | node color left s right =>
      obtain rfl : s = parent := Option.some.inj hslot
      refine ⟨⟨side, color, s, (node color left s right).child side.opposite⟩ :: path, ?_, rfl⟩
      cases side <;> simp_all [Frame.close, branch, child]

/-- Between two neighbours the child is missing on the right of the first one,
    or else on the left of the second one. -/
theorem vacant?_right_cases {p : Path} {before after : List Slot} {a b : Slot}
    (hnodup : (p.fill .nil).slots.Nodup) (hbefore : p.slotsBefore = before ++ [a])
    (hafter : p.slotsAfter = b :: after) :
    ((p.fill .nil).vacant? .right a = some true ∧ p.place = .under a .right) ∨
      ((p.fill .nil).vacant? .right a = some false ∧ p.place = .under b .left) := by
  cases p with
  | nil => simp at hbefore
  | cons f up =>
    have hvacant := vacant?_fill_cons hnodup
    cases hside : f.side with
    | right =>
      obtain rfl : f.slot = a := by
        have hlast := congrArg List.getLast? hbefore
        simpa [Path.slotsBefore_cons, hside] using hlast
      exact .inl ⟨by rw [← hside]; exact hvacant, by simp [Path.place, hside]⟩
    | left =>
      obtain rfl : f.slot = b := by
        have hhead := congrArg List.head? hafter
        simpa [Path.slotsAfter_cons, hside] using hhead
      refine .inr ⟨?_, by simp [Path.place, hside]⟩
      have hslots : (Path.fill (f :: up) .nil).slots = before ++ a :: f.slot :: after := by
        rw [Path.slots_fill, hbefore, hafter]
        simp [slots]
      have hmem : a ∈ (Path.fill (f :: up) .nil).slots := by
        rw [hslots]
        simp
      obtain ⟨q, color, left, right, hzoom, hfill⟩ := exists_zoom hmem
      have hright : right ≠ .nil := by
        rintro rfl
        have hsame : f :: up = ⟨.right, color, a, left⟩ :: q := by
          apply Path.eq_of_slotsBefore_eq
          · exact hfill.symm
          · rw [hbefore, (slots_around hnodup hfill hslots).1]
            simp [Path.slotsBefore_cons]
        have hf := (List.cons.inj hsame).1
        rw [hf] at hside
        cases hside
      rw [vacant?, hzoom]
      simp [child, hright]

/-- Hanging a node into a missing child is a repair above a red leaf. -/
theorem attach_place {p : Path} (slot : Slot) (hnodup : (p.fill .nil).slots.Nodup) :
    (p.fill .nil).attach slot p.place = p.repairRed (leaf .red slot) := by
  cases p with
  | nil => rfl
  | cons f up =>
    obtain ⟨side, color, parent, sibling⟩ := f
    cases side <;> simp only [Path.fill_cons, Frame.close, branch] at hnodup ⊢ <;>
      simp [attach, Path.place, Path.zoom_fill_node hnodup]

end Shape

end RedBlack
