import RedBlack.Proofs.Shape.Holes
import RedBlack.Proofs.Tree.Entries
import RedBlack.Tree.Search

namespace RedBlack

namespace Path

/-- The nodes on a path with the sides taken, as a walk down records them. -/
def steps (p : Path) : Trail :=
  p.map fun f => (f.slot, f.side)

theorem find?_steps (p : Path) :
    (p.steps.find? fun step => step.2 = .left).map Prod.fst = p.nearest .right := by
  induction p with
  | nil => rfl
  | cons f up ih =>
    have hcons : steps (f :: up) = (f.slot, f.side) :: steps up := rfl
    rw [hcons]
    cases h : f.side <;> simp_all [nearest]

theorem exists_frame_of_nearest {side : Side} {p : Path} {slot : Slot} (h : p.nearest side = some slot) :
    ∃ f ∈ p, f.slot = slot ∧ f.side = side.opposite := by
  induction p with
  | nil => cases h
  | cons f up ih =>
    rw [nearest] at h
    split at h
    · next hside => exact ⟨f, List.mem_cons_self, Option.some.inj h, hside⟩
    · obtain ⟨g, hg, hslot, hside⟩ := ih h
      exact ⟨g, List.mem_cons_of_mem _ hg, hslot, hside⟩

end Path

namespace Shape

/-- A walk down whose turns all answer ends at a missing child and makes one
    turn at each node met, whatever the comparator is. -/
theorem descend_spec {κ : Type} {turn : Slot → Query κ Side} {side : Slot → Side} (t : Shape)
    (trail : Trail) (hturn : ∀ slot ∈ t.slots, ∃ c, turn slot = .ok (side slot, [c])) :
    ∃ (p : Path) (asked : List (κ × κ)), p.fill .nil = t ∧
      t.descend turn trail = .ok (p.steps ++ trail, asked) ∧ asked.length = p.length ∧
      ∀ f ∈ p, f.side = side f.slot := by
  induction t generalizing trail with
  | nil => exact ⟨[], [], rfl, rfl, rfl, by simp⟩
  | node color left slot right ihl ihr =>
    obtain ⟨c, hc⟩ := hturn slot (by simp [slots])
    let t := node color left slot right
    let f : Frame := ⟨side slot, color, slot, t.child (side slot).opposite⟩
    have hclose : f.close (t.child (side slot)) = t := by
      cases hside : side slot <;> simp [f, t, hside, Frame.close, branch, child]
    obtain ⟨p, asked, hfill, hrun, hlength, hsides⟩ : ∃ (p : Path) (asked : List (κ × κ)),
        p.fill .nil = t.child (side slot) ∧
        (t.child (side slot)).descend turn ((slot, side slot) :: trail) =
          .ok (p.steps ++ (slot, side slot) :: trail, asked) ∧
        asked.length = p.length ∧ ∀ g ∈ p, g.side = side g.slot := by
      cases side slot with
      | left => exact ihl _ fun s hs => hturn s (by simp [slots, hs])
      | right => exact ihr _ fun s hs => hturn s (by simp [slots, hs])
    refine ⟨p ++ [f], c :: asked, ?_, ?_, by simp [hlength], ?_⟩
    · rw [Path.fill_append, hfill, Path.fill_cons, hclose, Path.fill_nil]
    · have hsteps : (p ++ [f]).map (fun g => (g.slot, g.side)) ++ trail =
          p.steps ++ (slot, side slot) :: trail := by simp [Path.steps, f]
      rw [descend, Query.bind_eq, hc, Path.steps, hsteps]
      cases hside : side slot <;> simp only [hside, t, child] at hrun <;>
        simp only [Query.bind, hrun] <;> rfl
    · intro g hg
      obtain hg | rfl := List.mem_append.mp hg |>.imp_right List.mem_singleton.mp
      · exact hsides g hg
      · rfl

end Shape

/-- The side of a stored key on which the place for `k` lies. -/
def Bound.side {κ : Type} (bound : Bound) (less : κ → κ → Bool) (k stored : κ) : Side :=
  match bound with
  | .lower => if less stored k then .right else .left
  | .upper => if less k stored then .left else .right

namespace Tree

variable {α κ : Type} {key : α → κ}

/-- The path leads to the missing child between two neighbouring parts of the
    entries. -/
structure Gap (t : Tree key) (p : Path) (before after : List (Slot × α)) : Prop where
  fill : p.fill .nil = t.shape
  before : p.slotsBefore = before.map Prod.fst
  after : p.slotsAfter = after.map Prod.fst

variable {t : Tree key} {entries before after : List (Slot × α)} {o : Outside α} {k : κ}

theorem Represents.exists_gap (h : t.Represents (before ++ after) o) : ∃ p, t.Gap p before after := by
  have hslots : t.shape.slots = before.map Prod.fst ++ after.map Prod.fst := by
    rw [h.slots, List.map_append]
  obtain ⟨p, hfill, hb, ha⟩ := Shape.exists_hole hslots
  exact ⟨p, hfill, hb, ha⟩

/-- The turns at the two neighbours of a gap point to it from both sides. -/
structure Points (side : κ → Side) (key : α → κ) (before after : List (Slot × α)) : Prop where
  before : ∀ a ∈ before.getLast?, side (key a.2) = .right
  after : ∀ b ∈ after.head?, side (key b.2) = .left

/-- A key whose lower bound follows a part comes after the last entry of that
    part. -/
theorem Points.less_of_getLast? {less : κ → κ → Bool} {before after : List (Slot × α)} {k : κ}
    (h : Points (Bound.lower.side less k) key before after) :
    ∀ a ∈ before.getLast?, less (key a.2) k = true := by
  intro a ha
  simpa [Bound.side] using h.before a ha

theorem Represents.turn (h : t.Represents entries o) (bound : Bound) (k : κ) {e : Slot × α}
    (he : e ∈ entries) : ∃ c, t.turn bound k e.1 = .ok (bound.side t.less k (key e.2), [c]) := by
  have hkey := h.keyAt he
  cases bound with
  | lower =>
    refine ⟨(key e.2, k), ?_⟩
    rw [Tree.turn, hkey]
    rfl
  | upper =>
    refine ⟨(k, key e.2), ?_⟩
    rw [Tree.turn, hkey]
    rfl

/-- A search ends at a gap of the entries, for every comparator, and turns at
    each node as the key of that says. Only a comparator that is an order says
    more about the rest. -/
theorem Represents.trail_sides (h : t.Represents entries o) (bound : Bound) (k : κ) :
    ∃ (p : Path) (before after : List (Slot × α)) (asked : List (κ × κ)), entries = before ++ after ∧
      t.Gap p before after ∧ t.trail bound k = .ok (p.steps, asked) ∧ asked.length = p.length ∧
      Points (bound.side t.less k) key before after ∧
      ∀ f ∈ p, ∀ e ∈ entries, e.1 = f.slot → f.side = bound.side t.less k (key e.2) := by
  let side (slot : Slot) : Side := ((t.keyAt slot).map (bound.side t.less k)).toOption.getD .left
  have hside (e : Slot × α) (he : e ∈ entries) : side e.1 = bound.side t.less k (key e.2) := by
    simp only [side, h.keyAt he]
    rfl
  have hturn : ∀ slot ∈ t.shape.slots, ∃ c, t.turn bound k slot = .ok (side slot, [c]) := by
    intro slot hslot
    rw [h.slots] at hslot
    obtain ⟨e, he, rfl⟩ := List.mem_map.mp hslot
    rw [hside e he]
    exact h.turn bound k he
  obtain ⟨p, asked, hfill, hrun, hlength, hsides⟩ := t.shape.descend_spec [] hturn
  have hslots := congrArg Shape.slots hfill
  rw [Path.slots_fill, h.slots, Shape.slots, List.append_nil] at hslots
  obtain ⟨before, after, rfl, hbefore, hafter⟩ := List.map_eq_append_iff.mp hslots.symm
  refine ⟨p, before, after, asked, rfl, ⟨hfill, hbefore.symm, hafter.symm⟩, ?_, hlength, ⟨?_, ?_⟩, ?_⟩
  · simpa [Tree.trail] using hrun
  · intro a ha
    have hnearest : p.nearest .left = some a.1 := by
      rw [Path.nearest_left, ← hbefore, List.getLast?_map, Option.mem_def.mp ha, Option.map_some]
    obtain ⟨f, hf, hslot, hfside⟩ := Path.exists_frame_of_nearest hnearest
    rw [← hside a (List.mem_append_left _ (List.mem_of_mem_getLast? ha)), ← hslot, ← hsides f hf, hfside,
      Side.opposite_left]
  · intro b hb
    have hnearest : p.nearest .right = some b.1 := by
      rw [Path.nearest_right, ← hafter, List.head?_map, Option.mem_def.mp hb, Option.map_some]
    obtain ⟨f, hf, hslot, hfside⟩ := Path.exists_frame_of_nearest hnearest
    rw [← hside b (List.mem_append_right _ (List.mem_of_mem_head? hb)), ← hslot, ← hsides f hf, hfside,
      Side.opposite_right]
  · intro f hf e he heq
    rw [hsides f hf, ← heq, hside e he]

theorem Represents.trail (h : t.Represents entries o) (bound : Bound) (k : κ) :
    ∃ (p : Path) (before after : List (Slot × α)) (asked : List (κ × κ)), entries = before ++ after ∧
      t.Gap p before after ∧ t.trail bound k = .ok (p.steps, asked) ∧ asked.length = p.length ∧
      Points (bound.side t.less k) key before after := by
  obtain ⟨p, before, after, asked, hsplit, hgap, hrun, hlength, hpoints, _⟩ := h.trail_sides bound k
  exact ⟨p, before, after, asked, hsplit, hgap, hrun, hlength, hpoints⟩

/-- The slot that a search by a bound gives is the first one after its gap. -/
theorem Gap.bound {p : Path} {asked : List (κ × κ)} {bound : Bound} (hgap : t.Gap p before after)
    (hrun : t.trail bound k = .ok (p.steps, asked)) : (t.bound bound k).answer = .ok (after.head?.map Prod.fst) := by
  rw [Tree.bound, Query.answer_bind, hrun, Query.answer_ok, ok_bind, Query.answer_pure,
    Path.find?_steps, Path.nearest_right, hgap.after, List.head?_map]

theorem Represents.bound (h : t.Represents entries o) (bound : Bound) (k : κ) :
    ∃ before after : List (Slot × α), entries = before ++ after ∧
      (t.bound bound k).answer = .ok (after.head?.map Prod.fst) ∧
      Points (bound.side t.less k) key before after := by
  obtain ⟨p, before, after, asked, hsplit, hgap, hrun, _, hpoints⟩ := h.trail bound k
  exact ⟨before, after, hsplit, hgap.bound hrun, hpoints⟩

theorem Represents.lowerBound (h : t.Represents entries o) (k : κ) :
    ∃ before after : List (Slot × α), entries = before ++ after ∧
      (t.lowerBound k).answer = .ok (t.position (after.head?.map Prod.fst)) ∧
      Points (Bound.lower.side t.less k) key before after := by
  obtain ⟨before, after, hsplit, hrun, hpoints⟩ := h.bound .lower k
  exact ⟨before, after, hsplit, by simp [Tree.lowerBound, hrun], hpoints⟩

theorem Represents.upperBound (h : t.Represents entries o) (k : κ) :
    ∃ before after : List (Slot × α), entries = before ++ after ∧
      (t.upperBound k).answer = .ok (t.position (after.head?.map Prod.fst)) ∧
      Points (Bound.upper.side t.less k) key before after := by
  obtain ⟨before, after, hsplit, hrun, hpoints⟩ := h.bound .upper k
  exact ⟨before, after, hsplit, by simp [Tree.upperBound, hrun], hpoints⟩

/-- What is found under a key: the first entry after the place for it, unless
    the key comes before that. -/
def hit (t : Tree key) (k : κ) (after : List (Slot × α)) : Option (Slot × α) :=
  after.head?.filter fun b => !t.less k (key b.2)

theorem hit_eq_some_iff {e : Slot × α} :
    t.hit k after = some e ↔ ∃ rest, after = e :: rest ∧ t.less k (key e.2) = false := by
  cases after with
  | nil => simp [hit]
  | cons b rest =>
    cases hless : t.less k (key b.2) with
    | true =>
      simp only [hit, List.head?_cons, Option.filter, hless, Bool.not_true, Bool.false_eq_true, if_false]
      constructor
      · nofun
      · rintro ⟨_, hcons, hfalse⟩
        obtain ⟨rfl, _⟩ := List.cons.inj hcons
        rw [hless] at hfalse
        cases hfalse
    | false =>
      simp only [hit, List.head?_cons, Option.filter, hless, Bool.not_false, if_true, Option.some.injEq]
      constructor
      · rintro rfl
        exact ⟨rest, rfl, hless⟩
      · rintro ⟨_, hcons, _⟩
        exact (List.cons.inj hcons).1

theorem Represents.find (h : t.Represents entries o) (k : κ) :
    ∃ before after : List (Slot × α), entries = before ++ after ∧
      (t.find k).answer = .ok (t.position ((t.hit k after).map Prod.fst)) ∧
      Points (Bound.lower.side t.less k) key before after := by
  obtain ⟨before, after, rfl, hrun, hpoints⟩ := h.bound .lower k
  refine ⟨before, after, rfl, ?_, hpoints⟩
  rw [Tree.find, Query.answer_bind, hrun, ok_bind]
  cases after with
  | nil => rfl
  | cons b rest =>
    have hmem : b ∈ before ++ b :: rest := by simp
    cases hless : t.less k (key b.2) <;> simp [hit, h.keyAt hmem, hless, Option.filter, finish]

theorem Represents.contains (h : t.Represents entries o) (k : κ) :
    ∃ before after : List (Slot × α), entries = before ++ after ∧
      (t.contains k).answer = .ok (t.hit k after).isSome ∧
      Points (Bound.lower.side t.less k) key before after := by
  obtain ⟨before, after, hsplit, hfind, hpoints⟩ := h.find k
  refine ⟨before, after, hsplit, ?_, hpoints⟩
  cases hhit : t.hit k after <;> simp [Tree.contains, hfind, hhit, Position.isEnd, position]

theorem own_position (t : Tree key) (slot : Option Slot) : t.own (t.position slot) = .ok slot :=
  if_pos rfl

theorem Represents.get (h : t.Represents (before ++ after) o) :
    t.get (t.position (after.head?.map Prod.fst)) = .ok (after.head?.map Prod.snd) := by
  rw [Tree.get, own_position, ok_bind]
  cases after with
  | nil => rfl
  | cons b rest =>
    have hitem : t.itemAt b.1 = .ok b.2 := h.itemAt (by simp)
    simp [hitem]

theorem Represents.get_hit (h : t.Represents (before ++ after) o) (k : κ) :
    t.get (t.position ((t.hit k after).map Prod.fst)) = .ok ((t.hit k after).map Prod.snd) := by
  cases hhit : t.hit k after with
  | none =>
    rw [Option.map_none, Tree.get, own_position]
    rfl
  | some e =>
    obtain ⟨rest, rfl, _⟩ := hit_eq_some_iff.mp hhit
    exact h.get

theorem Represents.first? (h : t.Represents entries o) : t.first? = .ok (entries.head?.map Prod.snd) := by
  have hsplit : t.Represents ([] ++ entries) o := h
  rw [Tree.first?, start, h.leftmost]
  exact hsplit.get

theorem Represents.last? (h : t.Represents entries o) : t.last? = .ok (entries.getLast?.map Prod.snd) := by
  rw [Tree.last?, h.isEmpty, h.rightmost]
  cases entries using List.reverseRecOn with
  | nil => rfl
  | append_singleton init e =>
    have hitem : t.itemAt e.1 = .ok e.2 := h.itemAt (by simp)
    simp [dereference, hitem]

end Tree

end RedBlack
