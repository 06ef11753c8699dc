import RedBlack.Proofs.LivePositions
import RedBlack.Proofs.Tree.Hints

namespace RedBlack

namespace Walk

variable {α κ β : Type} {key : α → κ} {w : Walk key β} {before between after : List (Slot × α)} {o : Outside α}

/-- Taken from the left, a walk gives the items that it covers in their
    order. -/
theorem Covers.take_left {limit : Nat} (h : w.Covers before between after o) (hlimit : between.length < limit) :
    ∃ w', w.take .left limit = .ok (between.map (w.view ∘ Prod.snd), w') := by
  induction between generalizing w before limit with
  | nil =>
    obtain ⟨limit, rfl⟩ := Nat.exists_eq_succ_of_ne_zero (Nat.ne_of_gt hlimit)
    exact ⟨w, by simp [Walk.take, h.advance_nil]⟩
  | cons e rest ih =>
    obtain ⟨limit, rfl⟩ := Nat.exists_eq_succ_of_ne_zero (Nat.ne_of_gt (Nat.zero_lt_of_lt hlimit))
    obtain ⟨w₁, hrun, hcovers, hview, _⟩ := h.forward
    have hrest : rest.length < limit := by
      rw [List.length_cons] at hlimit
      omega
    obtain ⟨w₂, hmore⟩ := ih hcovers hrest
    refine ⟨w₂, ?_⟩
    rw [Walk.take, Walk.advance, hrun, ok_bind]
    simp only
    rw [hmore, hview]
    rfl

theorem Covers.rest_left (h : w.Covers before between after o) :
    ∃ w', w.rest .left = .ok (between.map (w.view ∘ Prod.snd), w') := by
  apply h.take_left
  have hsize := h.tree.size
  simp only [List.length_append] at hsize
  omega

end Walk

namespace Tree

open RedBlack.Action

variable {α κ : Type} {key : α → κ} {t : Tree key} {entries : List (Slot × α)} {o : Outside α}
  {p q first last : Position}

/-- A position of a tree cuts its entries in two, so any two positions are in
    order one way or the other. -/
theorem Represents.exists_cut (h : t.Represents entries o) (hp : t.LiveOrEnd p) :
    ∃ before after : List (Slot × α), entries = before ++ after ∧ p = t.position (after.head?.map Prod.fst) := by
  obtain ⟨slot, tag⟩ := p
  obtain ⟨rfl, hslot⟩ := hp
  obtain ⟨front, back, rfl, rfl⟩ := h.exists_front hslot
  exact ⟨front, back, rfl, rfl⟩

/-- Two cuts, one behind the other, are two positions in order. -/
theorem Represents.inOrder {before between after : List (Slot × α)} (h : t.Represents (before ++ between ++ after) o) :
    t.InOrder (t.position ((between ++ after).head?.map Prod.fst)) (t.position (after.head?.map Prod.fst)) := by
  refine ⟨rfl, rfl, before.map Prod.fst, between.map Prod.fst, after.map Prod.fst, ?_, ?_, ?_⟩
  · simp [h.slots]
  · rw [← List.map_append, List.head?_map]
    rfl
  · rw [List.head?_map]
    rfl

theorem Represents.inOrder_total (h : t.Represents entries o) (hp : t.LiveOrEnd p) (hq : t.LiveOrEnd q) :
    t.InOrder p q ∨ t.InOrder q p := by
  obtain ⟨before, after, rfl, rfl⟩ := h.exists_cut hp
  obtain ⟨before', after', hsplit, rfl⟩ := h.exists_cut hq
  obtain ⟨middle, rfl, rfl⟩ | ⟨middle, rfl, rfl⟩ := List.append_eq_append_iff.mp hsplit
  · rw [← List.append_assoc] at h
    exact .inl h.inOrder
  · exact .inr h.inOrder

/-- A walk from one cut of the entries up to another one behind it covers the
    part of the entries that lies between them. -/
theorem Represents.walkRange_cut {before between after : List (Slot × α)}
    (h : t.Represents (before ++ between ++ after) o) :
    ∃ w : Walk key α, t.walkRange (t.position ((between ++ after).head?.map Prod.fst))
        (t.position (after.head?.map Prod.fst)) = .ok w ∧
      w.Covers before between after o ∧ w.view = id ∧ w.remaining = none := by
  refine ⟨{
    tree := t, view := id, front := (between ++ after).head?.map Prod.fst, back := after.head?.map Prod.fst
    remaining := none }, ?_, ⟨h, rfl, rfl, nofun⟩, rfl, rfl⟩
  simp [Tree.walkRange, own_position]

theorem Represents.walkRange (h : t.Represents entries o) (hrange : t.InOrder first last) :
    ∃ (w : Walk key α) (before between after : List (Slot × α)), t.walkRange first last = .ok w ∧
      w.Covers before between after o := by
  obtain ⟨before, between, after, rfl, hfirst, hlast, hlower, hupper⟩ := h.range_of_inOrder hrange
  obtain ⟨w, hrun, hcovers, _⟩ := h.walkRange_cut
  refine ⟨w, before, between, after, ?_, hcovers⟩
  rw [← hrun, Tree.position, Tree.position, ← hlower, ← hupper, ← hfirst]
  congr 1
  rw [hfirst, ← hlast]

section Order

variable (hless : StrictWeak t.less) (k : κ)
include hless

/-- Under a comparator that orders, the bounds of a key enclose a part of the
    entries, and the walk over its range covers that part. -/
theorem Represents.walkEqual (h : t.Represents entries o) :
    ∃ (w : Walk key α) (before between after : List (Slot × α)), entries = before ++ between ++ after ∧
      (t.walkEqual k).answer = .ok w ∧ w.Covers before between after o ∧ w.view = id ∧
      Points (Bound.lower.side t.less k) key before (between ++ after) ∧
      Points (Bound.upper.side t.less k) key (before ++ between) after := by
  obtain ⟨before, between, after, rfl, hrange, hlower, hupper⟩ := h.equalRange hless k
  obtain ⟨w, hrun, hcovers, hview, _⟩ := h.walkRange_cut
  refine ⟨w, before, between, after, rfl, ?_, hcovers, hview, hlower, hupper⟩
  rw [Tree.walkEqual, Query.answer_bind, hrange, ok_bind, Query.answer_lift]
  exact hrun

theorem Represents.count (h : t.Represents entries o) :
    ∃ before between after : List (Slot × α), entries = before ++ between ++ after ∧
      (t.count k).answer = .ok between.length ∧
      Points (Bound.lower.side t.less k) key before (between ++ after) ∧
      Points (Bound.upper.side t.less k) key (before ++ between) after := by
  obtain ⟨w, before, between, after, hsplit, hwalk, hcovers, _, hlower, hupper⟩ := h.walkEqual hless k
  obtain ⟨w', hrest⟩ := hcovers.rest_left
  refine ⟨before, between, after, hsplit, ?_, hlower, hupper⟩
  simp [Tree.count, hwalk, hrest]

end Order

/-- Erasing from a place up to one that lies before it takes out all the items
    behind, and then stops at the end. -/
theorem Represents.eraseUpTo_reversed {before after : List (Slot × α)} {fuel : Nat} {slot : Slot}
    (h : t.Represents (before ++ after) o) (hslot : slot ∈ before.map Prod.fst) (hfuel : after.length ≤ fuel) :
    (Tree.eraseUpTo (some slot) fuel (after.head?.map Prod.fst) : Op key Unit).wp (fun _ _ => False)
      (fun fault u => fault = .reversedRange ∧ u.Continues t ∧ u.Represents before o) t := by
  induction after generalizing t fuel with
  | nil =>
    rw [List.append_nil] at h
    unfold Tree.eraseUpTo
    exact ⟨rfl, .refl t, h⟩
  | cons e rest ih =>
    obtain ⟨fuel, rfl⟩ := Nat.exists_eq_succ_of_ne_zero (Nat.ne_of_gt (Nat.zero_lt_of_lt hfuel))
    have hne : ¬ (some slot : Option Slot) = some e.1 := by
      rintro ⟨rfl⟩
      have hnodup := h.store.nodup
      rw [List.map_append, List.map_cons] at hnodup
      exact List.disjoint_of_nodup_append hnodup hslot List.mem_cons_self
    rw [List.head?_cons, Option.map_some, Tree.eraseUpTo, if_neg hne, wp_bind, wp_look_ok (s := t) h.successor, wp_bind]
    refine h.eraseSlot.mono ?_
    rintro _ u ⟨_, hu, hrep⟩
    refine wp_mono (ih hrep (Nat.le_of_succ_le_succ hfuel)) (fun _ _ => False.elim) ?_
    rintro fault v ⟨hfault, hv, hdone⟩
    exact ⟨hfault, hv.trans hu, hdone⟩

/-- A range that runs backwards is erased up to the end of the tree, where the
    operation stops. -/
theorem Represents.eraseRange_reversed (h : t.Represents entries o) (hrange : t.InOrder last first)
    (hne : last ≠ first) :
    (Tree.eraseRange first last : Op key Position).wp (fun _ _ => False)
      (fun fault u => fault = .reversedRange ∧ u.Continues t ∧
        ∃ before after : List (Slot × α), entries = before ++ after ∧ first.slot = after.head?.map Prod.fst ∧
          u.Represents before o) t := by
  obtain ⟨front, between, after, rfl, hlast, hfirst, hupper, hlower⟩ := h.range_of_inOrder hrange
  cases between with
  | nil =>
    have hsame : last = first := by
      obtain ⟨lslot, ltag⟩ := last
      obtain ⟨fslot, ftag⟩ := first
      simp_all
    exact absurd hsame hne
  | cons e rest =>
    have hfuel : after.length ≤ t.size + 1 := by
      simp only [h.size, List.length_append]
      omega
    rw [Tree.eraseRange, wp_bind, wp_owned hfirst, wp_bind, wp_owned hlast, wp_bind, wp_look_ok (s := t) rfl]
    rw [hupper, hlower]
    simp only [List.cons_append, List.head?_cons, Option.map_some, reduceCtorEq, and_false, if_false]
    rw [wp_bind]
    refine wp_mono (h.eraseUpTo_reversed (by simp) hfuel) (fun _ _ => False.elim) ?_
    rintro fault u ⟨hfault, hu, hdone⟩
    exact ⟨hfault, hu, _, after, rfl, rfl, hdone⟩

end Tree

end RedBlack
