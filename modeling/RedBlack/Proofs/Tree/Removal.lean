import RedBlack.Proofs.Shape.Pruning
import RedBlack.Proofs.Tree.Insertion
import RedBlack.Tree.Removal

namespace RedBlack

namespace Path

/-- Where nothing lies before a subtree, its parent is right after it. -/
theorem parent_of_slotsBefore_eq_nil {p : Path} (h : p.slotsBefore = []) :
    p.head?.map Frame.slot = p.slotsAfter.head? := by
  cases p with
  | nil => rfl
  | cons f up => cases hside : f.side <;> simp_all [slotsBefore_cons, slotsAfter_cons]

/-- Where nothing lies after a subtree, its parent is right before it. -/
theorem parent_of_slotsAfter_eq_nil {p : Path} (h : p.slotsAfter = []) :
    p.head?.map Frame.slot = p.slotsBefore.getLast? := by
  cases p with
  | nil => rfl
  | cons f up => cases hside : f.side <;> simp_all [slotsBefore_cons, slotsAfter_cons]

end Path

theorem Shape.slots_eq_nil {t : Shape} : t.slots = [] ↔ t = .nil := by
  cases t <;> simp [slots]

namespace Tree

open RedBlack.Action

variable {α κ : Type} {key : α → κ} {t u v : Tree key} {entries rest before between after : List (Slot × α)}
  {o : Outside α} {slot : Slot} {item : α} {p first last : Position}

/-- The tree is in a later state of the given one, and only lost entries. The
    others are as they were, in their slots and in their order. -/
def ShrunkFrom (t : Tree key) (entries : List (Slot × α)) (o : Outside α) (u : Tree key) : Prop :=
  u.Continues t ∧ ∃ rest : List (Slot × α), rest.Sublist entries ∧ u.Represents rest o

theorem ShrunkFrom.kept (hu : u.Continues t) (h : u.Represents entries o) : t.ShrunkFrom entries o u :=
  ⟨hu, entries, List.Sublist.refl _, h⟩

theorem ShrunkFrom.trans (hv : u.ShrunkFrom rest o v) (hu : u.Continues t) (hsub : rest.Sublist entries) :
    t.ShrunkFrom entries o v := by
  obtain ⟨hv, left, hleft, hrep⟩ := hv
  exact ⟨hv.trans hu, left, hleft.trans hsub, hrep⟩

/-- Releasing all items at once leaves an empty tree over the store that their
    slots were given back to. -/
theorem clear_of_dispose {store : Store α} (h : t.dispose = .ok store) :
    (Tree.clear : Op key Unit).Yields t fun _ u => u = .empty key t.less store t.tag := by
  rw [Tree.dispose] at h
  have hteardown : (step fun t => do
      let store ← t.shape.releaseAll t.store
      return ((), { t with shape := .nil, leftmost := none, rightmost := none, size := 0, store }) :
        Op key Unit).Yields t fun _ u => u = .empty key t.less store t.tag := by
    rw [Yields, wp_step_ok (by rw [h]; rfl)]
    rfl
  simp only [Tree.clear, Yields, wp_bind, wp_look]
  split
  · rwa [wp_bind, wp_note]
  · exact hteardown

namespace Represents

theorem endsWithout (h : t.Represents (before ++ (slot, item) :: after) o) :
    t.endsWithout slot =
      ((before ++ after).head?.map Prod.fst, (before ++ after).getLast?.map Prod.fst) := by
  have hslots : t.shape.slots = before.map Prod.fst ++ slot :: after.map Prod.fst := by
    rw [h.slots, List.map_append, List.map_cons]
  have hmem : slot ∈ t.shape.slots := by simp [hslots]
  obtain ⟨q, color, left, right, hzoom, hfill⟩ := Shape.exists_zoom hmem
  obtain ⟨hbefore, hafter⟩ := Shape.slots_around h.nodup hfill hslots
  have hleftmost : t.leftmost = some slot ↔ before = [] := h.leftmost_eq_some_iff
  have hrightmost : t.rightmost = some slot ↔ after = [] := h.rightmost_eq_some_iff
  have hkeepLeft (hne : before ≠ []) : t.leftmost = (before ++ after).head?.map Prod.fst := by
    rw [h.leftmost, List.head?_append_of_ne_nil _ hne, List.head?_append_of_ne_nil _ hne]
  have hkeepRight (hne : after ≠ []) : t.rightmost = (before ++ after).getLast?.map Prod.fst := by
    rw [h.rightmost, List.getLast?_append_of_ne_nil _ hne, List.getLast?_append_of_ne_nil _ (by simp),
      List.getLast?_cons_of_ne_nil hne]
  rw [Tree.endsWithout, hzoom]
  by_cases hinner : left ≠ .nil ∧ right ≠ .nil
  · have hb : before ≠ [] := by
      rintro rfl
      exact hinner.1 (Shape.slots_eq_nil.mp (List.append_eq_nil_iff.mp hbefore.symm).2)
    have ha : after ≠ [] := by
      rintro rfl
      exact hinner.2 (Shape.slots_eq_nil.mp (List.append_eq_nil_iff.mp hafter.symm).1)
    simp only [if_pos hinner, hkeepLeft hb, hkeepRight ha]
  · simp only [if_neg hinner, hleftmost, hrightmost, Prod.mk.injEq]
    constructor
    · by_cases hb : before = []
      · subst hb
        have hq := (List.append_eq_nil_iff.mp hbefore.symm).1
        rw [if_pos rfl, Path.extremeWithout, Shape.extreme_left, Path.parent_of_slotsBefore_eq_nil hq,
          ← List.head?_append, ← hafter, List.nil_append, List.head?_map]
      · rw [if_neg hb, hkeepLeft hb]
    · by_cases ha : after = []
      · subst ha
        have hq := (List.append_eq_nil_iff.mp hafter.symm).2
        rw [if_pos rfl, Path.extremeWithout, Shape.extreme_right, Path.parent_of_slotsAfter_eq_nil hq,
          ← List.getLast?_append, ← hbefore, List.append_nil, List.getLast?_map]
      · rw [if_neg ha, hkeepRight ha]

/-- The node of an entry is unlinked; what was in its slot lies outside the tree
    then. A node with two children has a neighbour on either side, and is no
    end. -/
theorem detach (h : t.Represents (before ++ (slot, item) :: after) o) :
    ∃ u, t.detach slot = .ok u ∧ u.Continues t ∧ u.size = t.size ∧ o.use slot = none ∧
      ({ u with size := u.size - 1 } : Tree key).Represents (before ++ after) (o.add slot (some item)) := by
  have hslots : t.shape.slots = before.map Prod.fst ++ slot :: after.map Prod.fst := by
    rw [h.slots, List.map_append, List.map_cons]
  obtain ⟨r, hrun, hbalanced, hr⟩ := Shape.unlink_spec h.shape h.nodup hslots
  obtain ⟨hfree, hstore⟩ := h.store.unlink
  refine ⟨{ t with
    shape := r.shape, leftmost := (before ++ after).head?.map Prod.fst,
    rightmost := (before ++ after).getLast?.map Prod.fst }, ?_, ⟨rfl, rfl⟩, rfl, hfree, ?_⟩
  · simp only [Tree.detach, hrun, ok_bind, h.endsWithout, except_pure]
  · constructor
    · rw [hr, List.map_append]
    · exact hstore
    · exact hbalanced
    · rfl
    · rfl
    · simp only [h.size, List.length_append, List.length_cons]
      omega

theorem eraseSlot (h : t.Represents (before ++ (slot, item) :: after) o) :
    (eraseSlot slot : Op key α).Yields t fun answer u =>
      answer = item ∧ u.Continues t ∧ u.Represents (before ++ after) o := by
  obtain ⟨u, hrun, hu, hsize, hfree, hrep⟩ := h.detach
  have hpos : 1 ≤ u.size := by
    simp only [hsize, h.size, List.length_append, List.length_cons]
    omega
  rw [Tree.eraseSlot, Yields, wp_bind, wp_step_ok (by rw [hrun, ok_bind, checkedSub, if_pos hpos]; rfl)]
  refine (hrep.release hfree).mono ?_
  rintro _ v ⟨rfl, hv, hdone⟩
  exact ⟨rfl, ⟨hv.less.trans hu.less, hv.tag.trans hu.tag⟩, hdone⟩

theorem erase (h : t.Represents (before ++ (slot, item) :: after) o) (htag : p.tag = t.tag)
    (hslot : p.slot = some slot) :
    (erase p : Op key (α × Position)).Yields t fun answer u =>
      answer = (item, t.position (after.head?.map Prod.fst)) ∧ u.Continues t ∧
        u.Represents (before ++ after) o := by
  rw [Tree.erase, Yields, wp_bind, wp_owned htag, hslot]
  simp only
  rw [wp_bind, wp_look_ok (s := t) h.successor, wp_bind]
  refine h.eraseSlot.mono ?_
  rintro _ u ⟨rfl, hu, hrep⟩
  rw [wp_bind, wp_positionOf, hu.position]
  exact ⟨rfl, hu, hrep⟩

theorem remove (h : t.Represents (before ++ (slot, item) :: after) o) (htag : p.tag = t.tag)
    (hslot : p.slot = some slot) :
    (remove p : Op key α).Yields t fun answer u =>
      answer = item ∧ u.Continues t ∧ u.Represents (before ++ after) o := by
  rw [Tree.remove, Yields, wp_bind]
  refine (h.erase htag hslot).mono ?_
  rintro _ u ⟨rfl, hu, hrep⟩
  exact ⟨rfl, hu, hrep⟩

theorem dispose (h : t.Represents entries o) : ∃ store, t.dispose = .ok store ∧ store.Holds [] o := by
  have hstore : t.store.Holds ([] ++ entries ++ []) o := by simpa using h.store
  exact hstore.releaseAll h.slots

theorem clear (h : t.Represents entries o) :
    (clear : Op key Unit).Yields t fun _ u => u.Continues t ∧ u.Represents [] o := by
  obtain ⟨store, hrun, hstore⟩ := h.dispose
  refine (clear_of_dispose hrun).mono ?_
  rintro _ u rfl
  exact ⟨⟨rfl, rfl⟩, represents_empty hstore⟩

/-- The items between two places of the order are erased one by one; one step
    for each item, and one to see the end, are enough. -/
theorem eraseUpTo {fuel : Nat} (h : t.Represents (before ++ between ++ after) o)
    (hfuel : between.length < fuel) :
    (eraseUpTo (after.head?.map Prod.fst) fuel ((between ++ after).head?.map Prod.fst) :
      Op key Unit).Yields t fun _ u => u.Continues t ∧ u.Represents (before ++ after) o := by
  induction between generalizing t fuel with
  | nil =>
    cases fuel with
    | zero => omega
    | succ fuel =>
      have hdone : t.Continues t ∧ t.Represents (before ++ after) o := ⟨.refl t, by simpa using h⟩
      cases after with
      | nil => exact hdone
      | cons last rest => simpa [Tree.eraseUpTo] using hdone
  | cons e rest ih =>
    cases fuel with
    | zero => simp at hfuel
    | succ fuel =>
      have hsplit : before ++ (e :: rest) ++ after = before ++ e :: (rest ++ after) := by simp
      rw [hsplit] at h
      have hlast : ¬ after.head?.map Prod.fst = some e.1 := by
        have hnodup := h.store.nodup
        cases after with
        | nil => simp
        | cons last more =>
          simp only [List.head?_cons, Option.map_some, Option.some.injEq]
          intro heq
          simp [List.nodup_append, heq] at hnodup
      simp only [List.cons_append, List.head?_cons, Option.map_some, Tree.eraseUpTo, if_neg hlast]
      rw [Yields, wp_bind, wp_look_ok (s := t) h.successor, wp_bind]
      refine h.eraseSlot.mono ?_
      rintro _ u ⟨_, hu, hrep⟩
      have hrest : rest.length < fuel := by
        simp only [List.length_cons] at hfuel
        omega
      refine (ih (by simpa using hrep) hrest).mono ?_
      rintro _ v ⟨hv, hdone⟩
      exact ⟨hv.trans hu, hdone⟩

/-- The items of a range are erased, whether one by one or as a whole. -/
theorem eraseRange (h : t.Represents (before ++ between ++ after) o) (hfirst : first.tag = t.tag)
    (hlast : last.tag = t.tag) (hlower : first.slot = (between ++ after).head?.map Prod.fst)
    (hupper : last.slot = after.head?.map Prod.fst) :
    (eraseRange first last : Op key Position).Yields t fun answer u =>
      answer = last ∧ u.Continues t ∧ u.Represents (before ++ after) o := by
  rw [Tree.eraseRange, Yields, wp_bind, wp_owned hfirst, wp_bind, wp_owned hlast, wp_bind,
    wp_look_ok (s := t) rfl]
  split
  · next hall =>
    obtain ⟨hleft, hend⟩ := hall
    obtain rfl : after = [] := by simpa [hupper] using hend
    have hbefore : before = [] := by
      rw [hlower, h.leftmost] at hleft
      have hnodup := h.store.nodup
      cases before with
      | nil => rfl
      | cons b rest =>
        cases between with
        | nil => simp at hleft
        | cons e more =>
          have heq : e.1 = b.1 := by simpa using hleft
          simp [heq] at hnodup
    subst hbefore
    rw [wp_bind]
    refine h.clear.mono ?_
    rintro _ u ⟨hu, hrep⟩
    rw [wp_positionOf, hu.position]
    have hsame : t.position none = last := by
      rw [Tree.position, ← hend, ← hlast]
    exact ⟨hsame, hu, hrep⟩
  · have hfuel : between.length < t.size + 1 := by
      simp only [h.size, List.length_append]
      omega
    rw [wp_bind, hlower, hupper]
    refine (h.eraseUpTo hfuel).mono ?_
    rintro _ u ⟨hu, hrep⟩
    exact ⟨rfl, hu, hrep⟩

/-- Erasing from a slot on leaves some of the entries, wherever it stops and
    why. -/
theorem eraseUpTo_shrinks {fuel : Nat} {last start : Option Slot} (h : t.Represents entries o)
    (hstart : ∀ slot, start = some slot → slot ∈ t.shape.slots) :
    (Tree.eraseUpTo last fuel start : Op key Unit).wp (fun _ => t.ShrunkFrom entries o)
      (fun _ => t.ShrunkFrom entries o) t := by
  have hkept : t.ShrunkFrom entries o t := .kept (.refl t) h
  induction fuel generalizing t entries start with
  | zero =>
    cases start with
    | none => unfold Tree.eraseUpTo; split <;> exact hkept
    | some slot => exact hkept
  | succ fuel ih =>
    cases start with
    | none => unfold Tree.eraseUpTo; split <;> exact hkept
    | some slot =>
      rw [Tree.eraseUpTo]
      split
      · exact hkept
      · obtain ⟨before, item, after, rfl⟩ := h.exists_entry (hstart slot rfl)
        rw [wp_bind, wp_look_ok (s := t) h.successor, wp_bind]
        refine h.eraseSlot.mono ?_
        rintro _ u ⟨_, hu, hrep⟩
        have hnext : ∀ s, after.head?.map Prod.fst = some s → s ∈ u.shape.slots := by
          intro s hs
          obtain ⟨e, he, rfl⟩ := Option.map_eq_some_iff.mp hs
          rw [hrep.slots]
          exact List.mem_map_of_mem (List.mem_append_right _ (List.mem_of_mem_head? he))
        have hmore (v : Tree key) (hv : u.ShrunkFrom (before ++ after) o v) :
            t.ShrunkFrom (before ++ (slot, item) :: after) o v := hv.trans hu (by simp)
        exact wp_mono (ih hrep hnext (.kept (.refl u) hrep)) (fun _ => hmore) fun _ => hmore

/-- Erasing between any two places of a tree leaves some of the entries, even
    where the second place comes before the first one and the operation
    stops. -/
theorem eraseRange_shrinks (h : t.Represents entries o) (hfirst : t.LiveOrEnd first) (hlast : last.tag = t.tag) :
    (Tree.eraseRange first last : Op key Position).wp (fun _ => t.ShrunkFrom entries o)
      (fun _ => t.ShrunkFrom entries o) t := by
  rw [Tree.eraseRange, wp_bind, wp_owned hfirst.1, wp_bind, wp_owned hlast, wp_bind, wp_look_ok (s := t) rfl]
  split
  · rw [wp_bind]
    refine h.clear.mono ?_
    rintro _ u ⟨hu, hrep⟩
    exact ⟨hu, [], List.nil_sublist _, hrep⟩
  · rw [wp_bind]
    exact wp_mono (h.eraseUpTo_shrinks hfirst.2) (fun _ _ hleft => hleft) fun _ _ hleft => hleft

theorem range_of_inOrder (h : t.Represents entries o) (hrange : t.InOrder first last) :
    ∃ before between after : List (Slot × α), entries = before ++ between ++ after ∧ first.tag = t.tag ∧
      last.tag = t.tag ∧ first.slot = (between ++ after).head?.map Prod.fst ∧
      last.slot = after.head?.map Prod.fst := by
  obtain ⟨hfirst, hlast, _, _, _, hslots, hlower, hupper⟩ := hrange
  rw [h.slots] at hslots
  obtain ⟨front, after, rfl, hfront, rfl⟩ := List.map_eq_append_iff.mp hslots
  obtain ⟨before, between, rfl, rfl, rfl⟩ := List.map_eq_append_iff.mp hfront
  refine ⟨before, between, after, rfl, hfirst, hlast, ?_, ?_⟩
  · rw [hlower, ← List.map_append, List.head?_map]
  · rw [hupper, List.head?_map]

theorem popFirst (h : t.Represents entries o) :
    (popFirst : Op key (Option α)).Yields t fun answer u =>
      answer = entries.head?.map Prod.snd ∧ u.Continues t ∧ u.Represents entries.tail o := by
  rw [Tree.popFirst, Yields, wp_bind, wp_look_ok (s := t) rfl, h.isEmpty]
  cases entries with
  | nil => exact ⟨rfl, .refl t, h⟩
  | cons e rest =>
    have hleft : dereference t.leftmost = .ok e.1 := by rw [h.leftmost]; rfl
    rw [if_neg (by simp), wp_bind, wp_look_ok (s := t) hleft, wp_bind]
    have hsplit : t.Represents ([] ++ e :: rest) o := h
    refine hsplit.eraseSlot.mono ?_
    rintro _ u ⟨rfl, hu, hrep⟩
    exact ⟨rfl, hu, hrep⟩

theorem popLast (h : t.Represents entries o) :
    (popLast : Op key (Option α)).Yields t fun answer u =>
      answer = entries.getLast?.map Prod.snd ∧ u.Continues t ∧ u.Represents entries.dropLast o := by
  rw [Tree.popLast, Yields, wp_bind, wp_look_ok (s := t) rfl, h.isEmpty]
  cases entries using List.reverseRecOn with
  | nil => exact ⟨rfl, .refl t, h⟩
  | append_singleton init e =>
    have hright : dereference t.rightmost = .ok e.1 := by rw [h.rightmost, List.getLast?_concat]; rfl
    rw [if_neg (by simp), wp_bind, wp_look_ok (s := t) hright, wp_bind]
    refine h.eraseSlot.mono ?_
    rintro _ u ⟨rfl, hu, hrep⟩
    rw [List.append_nil] at hrep
    rw [List.getLast?_concat, List.dropLast_concat]
    exact ⟨rfl, hu, hrep⟩

end Represents

end Tree

end RedBlack
