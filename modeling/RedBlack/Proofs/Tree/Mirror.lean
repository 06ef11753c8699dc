import RedBlack.Proofs.OrderedMap
import RedBlack.Proofs.Shape.Mirror
import RedBlack.Proofs.Tree.Uniqueness
import RedBlack.Proofs.Wired.Mirror

namespace RedBlack

theorem StrictWeak.natural {κ : Type} [Ord κ] [Std.TransOrd κ] : StrictWeak (natural : κ → κ → Bool) where
  irrefl a h := by
    have hself : compare a a = .eq := Std.ReflCmp.compare_self
    rw [SortedMap.natural_eq_true_iff, hself] at h
    cases h
  trans a b c hab hbc := by
    rw [SortedMap.natural_eq_true_iff] at hab hbc ⊢
    exact Std.TransCmp.lt_trans hab hbc
  incomp_trans a b c hab hbc := by
    simp only [Bool.not_eq_true] at hab hbc
    have heq := Std.TransCmp.eq_trans (SortedMap.compare_eq_of_natural hab.1 hab.2)
      (SortedMap.compare_eq_of_natural hbc.1 hbc.2)
    rw [SortedMap.natural_eq_true_iff, SortedMap.natural_eq_true_iff, heq, Std.OrientedCmp.eq_symm heq]
    exact ⟨nofun, nofun⟩

namespace Tree

open RedBlack.Action

variable {α κ ρ υ : Type} {key : α → κ} {t : Tree key} {entries before after : List (Slot × α)} {o : Outside α}
  {slot : Slot} {item : α} {p : Path}

/-- The tree with left and right exchanged in every node and at the ends, under
    the reverse of its order, so that its entries stand in reverse. -/
def mirror (t : Tree key) : Tree key :=
  { t with
    shape := t.shape.mirror
    leftmost := t.rightmost
    rightmost := t.leftmost
    less := fun a b => t.less b a }

theorem table_mirror (t : Tree key) : t.mirror.table = (t.table.map Shape.Links.mirror).reverse :=
  Shape.links_mirror .header t.shape

theorem Represents.mirror (h : t.Represents entries o) : t.mirror.Represents entries.reverse o where
  slots := by
    rw [List.map_reverse, ← h.slots]
    exact t.shape.slots_mirror
  store := h.store.reverse
  shape := h.shape.mirror
  leftmost := by
    rw [List.head?_reverse]
    exact h.rightmost
  rightmost := by
    rw [List.getLast?_reverse]
    exact h.leftmost
  size := by
    rw [List.length_reverse]
    exact h.size

theorem Distinct.mirror (h : t.Distinct entries o) : t.mirror.Distinct entries.reverse o :=
  ⟨h.represents.mirror, List.pairwise_reverse.mpr h.ascending⟩

/-- Inserts items one after the other under unique keys; says of each what came
    of it. -/
def insertEachUnique : List α → Op key (List (Except AllocError (Position × Bool)))
  | [] => return []
  | item :: rest => return (← insertUnique item) :: (← insertEachUnique rest)

/-- On the mirror image of the tree the second operation does the mirror image
    of what the first one does on the tree, and answers the same. -/
structure MirroredBy (t : Tree key) (a b : Op key ρ) : Prop where
  answer : (b.run t.mirror).answer = (a.run t).answer
  state : (b.run t.mirror).state = (a.run t).state.mirror

namespace MirroredBy

theorem pure (x : ρ) : t.MirroredBy (Pure.pure x) (Pure.pure x) :=
  ⟨rfl, rfl⟩

theorem bind {a b : Op key ρ} {next next' : ρ → Op key υ} (h : t.MirroredBy a b)
    (hnext : ∀ x, (a.run t).answer = .ok x → (a.run t).state.MirroredBy (next x) (next' x)) :
    t.MirroredBy (a >>= next) (b >>= next') := by
  cases hanswer : (a.run t).answer with
  | error fault =>
    obtain ⟨hstate, hrun⟩ := run_bind_error hanswer next
    obtain ⟨hstate', hrun'⟩ := run_bind_error (h.answer.trans hanswer) next'
    exact ⟨hrun'.trans hrun.symm, hstate'.trans (h.state.trans (congrArg Tree.mirror hstate.symm))⟩
  | ok x =>
    obtain ⟨hstate, hrun⟩ := run_bind_ok hanswer next
    obtain ⟨hstate', hrun'⟩ := run_bind_ok (h.answer.trans hanswer) next'
    rw [h.state] at hstate' hrun'
    have hthen := hnext x hanswer
    exact ⟨hrun'.trans (hthen.answer.trans hrun.symm),
      hstate'.trans (hthen.state.trans (congrArg Tree.mirror hstate.symm))⟩

theorem step {change change' : Tree key → Except Fault (ρ × Tree key)}
    (h : change' t.mirror = (change t).map fun done => (done.1, done.2.mirror)) :
    t.MirroredBy (Action.step change) (Action.step change') := by
  constructor <;> simp only [Action.run, Action.step, h] <;> cases change t <;> rfl

theorem allocate : t.MirroredBy Tree.allocate Tree.allocate := by
  apply step
  change (t.store.allocate >>= _) = Except.map _ (t.store.allocate >>= _)
  cases t.store.allocate <;> rfl

theorem construct (slot : Slot) (item : α) : t.MirroredBy (Tree.construct slot item) (Tree.construct slot item) := by
  apply step
  change (t.store.construct slot item >>= _) = Except.map _ (t.store.construct slot item >>= _)
  cases t.store.construct slot item <;> rfl

end MirroredBy

theorem endsWith_mirror (t : Tree key) (slot : Slot) (place : Place) :
    t.mirror.endsWith slot place.mirror = (t.endsWith slot place).swap := by
  obtain _ | ⟨parent, side⟩ := place
  · rfl
  · cases side <;> rfl

/-- A node hung in the mirror image of a place gives the mirror image of the
    tree. -/
theorem attach_mirror {u : Tree key} (hnodup : t.shape.slots.Nodup) (hfill : p.fill .nil = t.shape)
    (h : t.attach slot p.place = .ok u) : t.mirror.attach slot p.place.mirror = .ok u.mirror := by
  obtain ⟨r, hrun, hu⟩ := bind_eq_ok.mp h
  obtain rfl := Except.ok.inj hu
  rw [← hfill] at hnodup hrun
  have hmirror : t.mirror.shape.attach slot p.place.mirror = .ok r.mirror := by
    change t.shape.mirror.attach slot p.place.mirror = _
    rw [← hfill, Shape.attach_mirror slot hnodup, hrun]
    rfl
  rw [Tree.attach, hmirror, endsWith_mirror]
  rfl

namespace Represents

theorem hang_mirror (h : t.Represents (before ++ after) (o.add slot (some item))) (hfree : o.use slot = none)
    (hgap : t.Gap p before after) : t.MirroredBy (Tree.hang slot p.place) (Tree.hang slot p.place.mirror) := by
  obtain ⟨u, hattach, _⟩ := h.attach hfree hgap
  apply MirroredBy.step
  simp only [hattach, Tree.attach_mirror h.nodup hgap.fill hattach]
  rfl

theorem insertAt_mirror (h : t.Represents (before ++ after) o) (hgap : t.Gap p before after) (item : α) :
    t.MirroredBy (Tree.insertAt item p.place) (Tree.insertAt item p.place.mirror) := by
  refine .bind .allocate fun given hgiven => ?_
  obtain ⟨_, hgiven', _, hshape, ⟨slot, rfl, hfree, h₁⟩ | ⟨rfl, _⟩⟩ := h.allocate.answer
  · obtain rfl := Except.ok.inj (hgiven.symm.trans hgiven')
    refine .bind (.construct slot item) fun _ _ => ?_
    obtain ⟨_, _, _, hshape', h₂⟩ := (h₁.construct item).answer
    have hgap₂ := Gap.mk (hgap.fill.trans (hshape'.trans hshape).symm) hgap.before hgap.after
    exact .bind (h₂.hang_mirror hfree hgap₂) fun _ _ => .pure _
  · obtain rfl := Except.ok.inj (hgiven.symm.trans hgiven')
    exact .pure _

end Represents

/-- The way to the place between two parts of the entries is in the mirror the
    mirror image of the way. -/
theorem Gap.mirror {p q : Path} (hgap : t.Gap p before after) (hmirror : t.mirror.Gap q after.reverse before.reverse) :
    q = p.mirror := by
  apply Path.eq_of_slotsBefore_eq
  · rw [hmirror.fill, ← Shape.mirror_nil, Path.fill_mirror, hgap.fill]
    rfl
  · rw [hmirror.before, Path.slotsBefore_mirror, hgap.after, List.map_reverse]

namespace Distinct

/-- An insertion under unique keys finds in the mirror the mirror image of the
    place, or the same item in its way. Both searches name the place between the
    same two parts, so the insertions go on there. -/
theorem insertUnique_mirror (h : t.Distinct entries o) (hless : StrictWeak t.less) (item : α) :
    t.MirroredBy (Tree.insertUnique item) (Tree.insertUnique item) := by
  obtain ⟨lower, here, upper, rfl, hbounds⟩ := h.exists_bounds hless (key item)
  have hparted := hbounds.parted
  have hparted' := hparted.reverse
  have hrep' := h.mirror.represents
  have hsorted' := h.mirror.sorted hless.reverse
  have hreverse : (lower ++ here.toList ++ upper).reverse = upper.reverse ++ here.toList.reverse ++ lower.reverse := by
    simp
  rw [hreverse] at hrep' hsorted'
  cases here with
  | some e =>
    obtain ⟨hanswer, hstate⟩ := h.represents.insertUnique_there hless (h.sorted hless) hparted (e := e) rfl
    obtain ⟨hanswer', hstate'⟩ := hrep'.insertUnique_there hless.reverse hsorted' hparted' (e := e) rfl
    exact ⟨hanswer'.trans hanswer.symm, by rw [hstate', hstate]⟩
  | none =>
    obtain ⟨_, hlast, _⟩ | ⟨_, p, hgap, hfound⟩ := h.represents.uniquePlace_parted hless (h.sorted hless) hparted
    · cases hlast
    obtain ⟨_, hlast, _⟩ | ⟨_, q, hgap', hfound'⟩ := hrep'.uniquePlace_parted hless.reverse hsorted' hparted'
    · cases hlast
    obtain rfl := hgap.mirror hgap'
    obtain ⟨hstate, hanswer⟩ := run_insertUniqueBy Tree.uniquePlace hfound
    obtain ⟨hstate', hanswer'⟩ := run_insertUniqueBy Tree.uniquePlace hfound'
    rw [Path.place_mirror] at hstate' hanswer'
    have hput : t.MirroredBy (insertFound item (.vacant p.place)) (insertFound item (.vacant p.place.mirror)) := by
      have hrep : t.Represents (lower ++ upper) o := by simpa using h.represents
      exact .bind (hrep.insertAt_mirror hgap item) fun _ _ => .pure _
    exact ⟨hanswer'.trans (hput.answer.trans hanswer.symm), hstate'.trans (hput.state.trans (congrArg _ hstate.symm))⟩

theorem insertEachUnique_mirror (h : t.Distinct entries o) (hless : StrictWeak t.less) (items : List α) :
    t.MirroredBy (Tree.insertEachUnique items) (Tree.insertEachUnique items) := by
  induction items generalizing t entries with
  | nil => exact .pure []
  | cons item rest ih =>
    refine .bind (h.insertUnique_mirror hless item) fun answer _ => ?_
    obtain ⟨_, _, hinsertion⟩ := (h.represents.insertUnique item).answer
    obtain ⟨hu, _, hdone⟩ := h.uniqueInsertion hless hinsertion
    exact .bind (ih hdone (hu.less ▸ hless)) fun answers _ => .pure (answer :: answers)

theorem insertEachUnique (h : t.Distinct entries o) (hless : StrictWeak t.less) (items : List α) :
    (Tree.insertEachUnique items).Yields t fun answers u => answers.length = items.length ∧ t.StaysDistinct o u := by
  induction items generalizing t entries with
  | nil => exact ⟨rfl, .refl t, entries, h⟩
  | cons item rest ih =>
    rw [Tree.insertEachUnique, Yields, wp_bind]
    refine (h.represents.insertUnique item).mono fun answer t₁ hinsertion => ?_
    obtain ⟨ht₁, _, h₁⟩ := h.uniqueInsertion hless hinsertion
    rw [wp_bind]
    refine (ih h₁ (ht₁.less ▸ hless)).mono fun answers u hdone => ?_
    obtain ⟨hlength, hu, hrest⟩ := hdone
    exact ⟨congrArg (· + 1) hlength, hu.trans ht₁, hrest⟩

end Distinct

/-- The mirrored halves of the repairs are mirror images of each other. Where
    the only violation is at a red node, or the only defect is one missing black
    node below one side of a node, the repair ends on the links of a tree, and
    on those of its mirror image it ends in the mirror image of that. On which
    side a subtree hangs that lacks a black node is told by the left link of its
    parent, also where it is missing itself. So insertions under unique keys
    into an empty tree build under the reverse of an order the mirror image of
    what they build under the order, in the same slots, with the same
    answers. -/
theorem repairs_commute_with_mirror (key : α → κ) :
    (∀ (g : Wired α) (t : Shape), g.Holds t → t.slots.Nodup → g.mirror.Holds t.mirror) ∧
    (∀ (g : Wired α) (p : Path) (x : Shape) (n limit : Nat), g.Holds (p.fill x) → (p.fill x).slots.Nodup →
      p.Fits .black n → x.Balanced n → x.color = .red → p.length < limit →
      ∃ g' u, (Rewiring.insertFixup limit (.ofChild x.slot?)).Leads g () g' ∧
        (Rewiring.insertFixup limit (.ofChild x.slot?)).Leads g.mirror () g'.mirror ∧ g'.Holds u ∧ u.IsRedBlack) ∧
    (∀ (g : Wired α) (p : Path) (x : Shape) (n limit : Nat), g.Holds (p.fill x) → (p.fill x).slots.Nodup →
      p.Fits .black (n + 1) → x.Balanced n → p.length < limit →
      ∃ g' u, (Rewiring.eraseFixup limit (.ofChild x.slot?) p.parent).Leads g () g' ∧
        (Rewiring.eraseFixup limit (.ofChild x.slot?) p.parent).Leads g.mirror () g'.mirror ∧ g'.Holds u ∧
        u.IsRedBlack) ∧
    (∀ t : Tree key, t.mirror.table = (t.table.map Shape.Links.mirror).reverse) ∧
    ∀ (less : κ → κ → Bool) (store : Store α) (tag : UInt64) (items : List α), StrictWeak less → store.Sound →
      let ordered := (insertEachUnique items).run (empty key less store tag)
      let reversed := (insertEachUnique items).run (empty key (fun a b => less b a) store tag)
      (∃ answers, ordered.answer = .ok answers ∧ reversed.answer = .ok answers) ∧
        reversed.state = ordered.state.mirror := by
  refine ⟨fun g t => .mirror, ?_, ?_, table_mirror, ?_⟩
  · intro g p x n limit hg hnodup hp hx hred hlimit
    exact Rewiring.insertFixup_mirrored hg hnodup hp hx hred hlimit
  · intro g p x n limit hg hnodup hp hx hlimit
    exact Rewiring.eraseFixup_mirrored hg hnodup hp hx hlimit
  · intro less store tag items hless hstore
    have hempty : (empty key less store tag).Distinct [] _ := ⟨represents_empty hstore.holds_nil, List.Pairwise.nil⟩
    obtain ⟨answers, hanswers, _⟩ := (hempty.insertEachUnique hless items).answer
    have hmirror := hempty.insertEachUnique_mirror hless items
    exact ⟨⟨answers, hanswers, hmirror.answer.trans hanswers⟩, hmirror.state⟩

/-- A red leaf in slot 0 below a red node in slot 1, which is raised over the
    root; a missing black node below the root in slot 0 and beside a black leaf
    in slot 1, which turns red; and three numbers inserted in their natural
    order and in its reverse. -/
theorem repairs_commute_with_mirror_three :
    (∃ g g' : Wired Nat, g.root = .node 2 ∧ g'.root = .node 1 ∧ (Rewiring.insertFixup 3 (.node 0)).Leads g () g' ∧
      (Rewiring.insertFixup 3 (.node 0)).Leads g.mirror () g'.mirror) ∧
    (∃ g g' : Wired Nat, g.store.read 1 = .ok (⟨1, .black, .node 0, .nil, .nil⟩, 20) ∧
      g'.store.read 1 = .ok (⟨1, .red, .node 0, .nil, .nil⟩, 20) ∧
      (Rewiring.eraseFixup 2 .nil (.node 0)).Leads g () g' ∧
      (Rewiring.eraseFixup 2 .nil (.node 0)).Leads g.mirror () g'.mirror) ∧
    let ordered := (insertEachUnique [1, 2, 3]).run (empty (id : Nat → Nat) natural (.arena .empty) 1)
    let reversed := (insertEachUnique [1, 2, 3]).run (empty (id : Nat → Nat) (fun a b => natural b a) (.arena .empty) 1)
    ordered.state.items = .ok [1, 2, 3] ∧ reversed.state.items = .ok [3, 2, 1] ∧
      reversed.state = ordered.state.mirror := by
  obtain ⟨_, hred, hshort, _, hruns⟩ := repairs_commute_with_mirror (id : Nat → Nat)
  refine ⟨?_, ?_, rfl, rfl, (hruns natural (.arena .empty) 1 [1, 2, 3] .natural Arena.sound_empty).2⟩
  · let g : Wired Nat :=
      { root := .node 2, leftmost := .node 0, rightmost := .node 2, size := 3
        store := .arena
          { cells := #[.built (⟨0, .red, .node 1, .nil, .nil⟩, 10), .built (⟨1, .red, .node 2, .node 0, .nil⟩, 20),
              .built (⟨2, .black, .header, .node 1, .nil⟩, 30)]
            free := none } }
    let p : Path := [⟨.left, .red, 1, .nil⟩, ⟨.left, .black, 2, .nil⟩]
    have hg : g.Holds (p.fill (.leaf .red 0)) := by
      have hlines : (p.fill (.leaf .red 0)).links .header =
          [⟨0, .red, .node 1, .nil, .nil⟩, ⟨1, .red, .node 2, .node 0, .nil⟩, ⟨2, .black, .header, .node 1, .nil⟩] :=
        rfl
      refine ⟨rfl, ?_⟩
      simp only [hlines, List.forall_mem_cons, List.not_mem_nil, false_implies, implies_true, and_true]
      exact ⟨⟨10, rfl⟩, ⟨20, rfl⟩, ⟨30, rfl⟩⟩
    obtain ⟨g', u, h, h', _⟩ := hred g p (.leaf .red 0) 0 3 hg (by decide) ⟨rfl, fun _ => ⟨rfl, rfl⟩, rfl, nofun, rfl⟩
      ⟨0, rfl, rfl, rfl, fun _ => ⟨rfl, rfl⟩⟩ rfl (by decide)
    have hroot : ((Rewiring.insertFixup 3 (.node 0)).run g).run.map (Option.map fun done => done.2.root) =
        .ok (some (.node 1)) := rfl
    rw [show (Rewiring.insertFixup 3 (.node 0)).run g = _ from h] at hroot
    exact ⟨g, g', rfl, Option.some.inj (Except.ok.inj hroot), h, h'⟩
  · let g : Wired Nat :=
      { root := .node 0, leftmost := .node 0, rightmost := .node 1, size := 2
        store := .arena
          { cells := #[.built (⟨0, .black, .header, .nil, .node 1⟩, 10), .built (⟨1, .black, .node 0, .nil, .nil⟩, 20)]
            free := none } }
    let p : Path := [⟨.left, .black, 0, .leaf .black 1⟩]
    have hg : g.Holds (p.fill .nil) := by
      have hlines : (p.fill .nil).links .header =
          [⟨0, .black, .header, .nil, .node 1⟩, ⟨1, .black, .node 0, .nil, .nil⟩] := rfl
      refine ⟨rfl, ?_⟩
      simp only [hlines, List.forall_mem_cons, List.not_mem_nil, false_implies, implies_true, and_true]
      exact ⟨⟨10, rfl⟩, ⟨20, rfl⟩⟩
    obtain ⟨g', u, h, h', _⟩ :=
      hshort g p .nil 0 2 hg (by decide) ⟨⟨0, rfl, rfl, rfl, nofun⟩, nofun, rfl⟩ rfl (by decide)
    have hturned : ((Rewiring.eraseFixup 2 .nil (.node 0)).run g).run.map
        (Option.map fun done => done.2.store.read 1) =
          .ok (some (.ok (⟨1, .red, .node 0, .nil, .nil⟩, 20))) := rfl
    rw [show (Rewiring.eraseFixup 2 .nil (.node 0)).run g = _ from h] at hturned
    exact ⟨g, g', rfl, Option.some.inj (Except.ok.inj hturned), h, h'⟩

end Tree

end RedBlack
