import RedBlack.Proofs.Wired.Carrying

namespace RedBlack

namespace Rewiring

variable {α : Type} {g g₁ g₂ : Wired α} {moves more : List (Move α)} {m : Move α}

theorem leads_moves_append (h : (forM moves Move.wire).Leads g () g₁) (hmore : (forM more Move.wire).Leads g₁ () g₂) :
    (forM (moves ++ more) Move.wire).Leads g () g₂ := by
  rw [List.forM_append]
  exact h.bind hmore

theorem leads_move (h : m.wire.Leads g () g₁) : (forM [m] Move.wire).Leads g () g₁ :=
  h.bind (.pure () g₁)

end Rewiring

namespace Tree

open RedBlack.Action

variable {α κ ε ρ υ : Type} {key : α → κ} {t u v : Tree key} {entries before after : List (Slot × α)} {o : Outside α}
  {slot : Slot} {item : α}

theorem detach_of_not_mem (hslot : slot ∉ t.shape.slots) : t.detach slot = .error (.dereference .nil) := by
  have hunlink : t.shape.unlink slot = .error (.dereference .nil) := by
    rw [Shape.unlink, (Shape.zoom_eq_none slot t.shape []).mpr hslot]
  rw [Tree.detach, hunlink]
  rfl

theorem mem_of_eraseSlot {answer : α} (hanswer : ((Tree.eraseSlot slot).run t).answer = .ok answer) :
    slot ∈ t.shape.slots := by
  by_contra hmem
  have hstopped : ((Action.step fun t => do
      let t ← t.detach slot
      return ((), { t with size := ← checkedSub t.size 1 }) : Op key Unit).run t).answer =
        .error (.dereference .nil) := by
    simp [Action.run, Action.step, detach_of_not_mem hmem]
  rw [Tree.eraseSlot, (run_bind_error hstopped _).2] at hanswer
  cases hanswer

/-- The one tree becomes the other by writes that can be done to the links as
    well: from links that carry the one tree they lead, with no assertion
    failing on the way, to links that carry the other. -/
def RelinksTo (t u : Tree key) : Prop :=
  ∃ moves : List (Move α), moves.foldlM (fun t m => m.act t) t = .ok u ∧
    ∀ g : Wired α, g.Carries t → ∃ g', (forM moves Move.wire).Leads g () g' ∧ g'.Carries u

theorem RelinksTo.refl (t : Tree key) : t.RelinksTo t :=
  ⟨[], rfl, fun g hg => ⟨g, .pure () g, hg⟩⟩

theorem RelinksTo.trans (htu : t.RelinksTo u) (huv : u.RelinksTo v) : t.RelinksTo v := by
  obtain ⟨moves, hmoves, hleads⟩ := htu
  obtain ⟨more, hmore, hleads'⟩ := huv
  refine ⟨moves ++ more, ?_, ?_⟩
  · rw [List.foldlM_append, hmoves]
    exact hmore
  · intro g hg
    obtain ⟨g₁, hg₁, hcarries⟩ := hleads g hg
    obtain ⟨g₂, hg₂, hcarries'⟩ := hleads' g₁ hcarries
    exact ⟨g₂, Rewiring.leads_moves_append hg₁ hg₂, hcarries'⟩

theorem Represents.relinksTo {m : Move α} (h : t.Represents entries o) (hfits : m.Fits t) (hact : m.act t = .ok u) :
    t.RelinksTo u := by
  have hsize : t.size = t.shape.size := by
    rw [← Shape.length_slots, h.slots, List.length_map, h.size]
  refine ⟨[m], ?_, ?_⟩
  · rw [List.foldlM_cons, hact]
    rfl
  · intro g hg
    obtain ⟨g', hleads, hcarries⟩ := Move.wires hg h.nodup hsize hfits hact
    exact ⟨g', Rewiring.leads_move hleads, hcarries⟩

/-- However the operation ends, with an answer or with a fault, it has only made
    such writes. -/
def RelinkedBy (t : Tree key) (a : Op key ρ) : Prop :=
  t.RelinksTo (a.run t).state

namespace RelinkedBy

variable {a : Op key ρ}

theorem pure (x : ρ) : t.RelinkedBy (Pure.pure x) :=
  .refl t

theorem fail (fault : Fault) : t.RelinkedBy (Action.fail fault : Op key ρ) :=
  .refl t

theorem look (view : Tree key → Except Fault ρ) : t.RelinkedBy (Action.look view : Op key ρ) :=
  .refl t

theorem note (n : Note) : t.RelinkedBy (Action.note n) :=
  .refl t

theorem ask (question : Tree key → Query κ ρ) : t.RelinkedBy (Action.ask question) := by
  have hstate : ((Action.ask question).run t).state = t := by
    rw [Action.run, Action.ask]
    split <;> rfl
  rw [RelinkedBy, hstate]
  exact .refl t

theorem step {change : Tree key → Except Fault (ρ × Tree key)} (h : ∀ x u, change t = .ok (x, u) → t.RelinksTo u) :
    t.RelinkedBy (Action.step change) := by
  rw [RelinkedBy, Action.run, Action.step]
  split
  · next x u hrun => exact h x u hrun
  · exact .refl t

/-- What the second operation does has to be known only of what the first one
    leaves. -/
theorem bind {next : ρ → Op key υ} (h : t.RelinkedBy a)
    (hnext : ∀ x, (a.run t).answer = .ok x → (a.run t).state.RelinkedBy (next x)) : t.RelinkedBy (a >>= next) := by
  cases hanswer : (a.run t).answer with
  | error fault =>
    rw [RelinkedBy, (run_bind_error hanswer next).1]
    exact h
  | ok x =>
    rw [RelinkedBy, (run_bind_ok hanswer next).1]
    exact h.trans (hnext x hanswer)

theorem map (h : t.RelinkedBy a) (f : ρ → υ) : t.RelinkedBy (f <$> a) :=
  h.bind fun x _ => .pure (f x)

/-- A question leaves everything as it is, so that what comes next starts from
    the same tree. -/
theorem ask_bind {question : Tree key → Query κ ρ} {next : ρ → Op key υ} (hnext : ∀ x, t.RelinkedBy (next x)) :
    t.RelinkedBy (Action.ask question >>= next) := by
  refine (RelinkedBy.ask question).bind fun x _ => ?_
  have hstate : ((Action.ask question).run t).state = t := by
    rw [Action.run, Action.ask]
    split <;> rfl
  rw [hstate]
  exact hnext x

theorem look_bind {view : Tree key → Except Fault ρ} {next : ρ → Op key υ} (hnext : ∀ x, t.RelinkedBy (next x)) :
    t.RelinkedBy (Action.look view >>= next) :=
  (RelinkedBy.look view).bind fun x _ => hnext x

end RelinkedBy

namespace Represents

theorem relinkedBy_allocate (h : t.Represents entries o) : t.RelinkedBy Tree.allocate := by
  refine .step fun answer u hrun => ?_
  obtain ⟨⟨_, store⟩, hstore, hu⟩ := bind_eq_ok.mp hrun
  obtain ⟨rfl, rfl⟩ := Prod.mk.inj (Except.ok.inj hu)
  exact h.relinksTo (m := .allocate) trivial (by rw [Move.act, hstore]; rfl)

theorem relinkedBy_construct (h : t.Represents entries o) (slot : Slot) (item : α) :
    t.RelinkedBy (Tree.construct slot item) := by
  refine .step fun answer u hrun => ?_
  obtain ⟨store, hstore, hu⟩ := bind_eq_ok.mp hrun
  obtain ⟨rfl, rfl⟩ := Prod.mk.inj (Except.ok.inj hu)
  exact h.relinksTo (m := .construct slot item) trivial (by rw [Move.act, hstore]; rfl)

section Outside

variable {content : Option α} (h : t.Represents entries (o.add slot content))
include h

theorem not_mem_of_outside : slot ∉ t.shape.slots := by
  rw [h.slots]
  exact h.store.not_mem_of_use (o.use_add_self slot content)

theorem relinkedBy_giveBack : t.RelinkedBy (Tree.giveBack slot) := by
  refine .step fun answer u hrun => ?_
  obtain ⟨⟨_, store⟩, hstore, hu⟩ := bind_eq_ok.mp hrun
  obtain ⟨rfl, rfl⟩ := Prod.mk.inj (Except.ok.inj hu)
  exact h.relinksTo (m := .deallocate slot) h.not_mem_of_outside (by rw [Move.act, hstore]; rfl)

theorem relinkedBy_release : t.RelinkedBy (Tree.release slot) := by
  refine .step fun answer u hrun => ?_
  obtain ⟨⟨found, store⟩, hstore, hu⟩ := bind_eq_ok.mp hrun
  cases found with
  | none => cases hu
  | some item =>
    obtain ⟨rfl, rfl⟩ := Prod.mk.inj (Except.ok.inj hu)
    exact h.relinksTo (m := .deallocate slot) h.not_mem_of_outside (by rw [Move.act, hstore]; rfl)

end Outside

/-- A built node outside the tree is hung into any place that is free, and no
    place else. -/
theorem relinkedBy_hang (h : t.Represents entries (o.add slot (some item))) (place : Place) :
    t.RelinkedBy (Tree.hang slot place) := by
  refine .step fun answer u hrun => ?_
  obtain ⟨t', hattach, hu⟩ := bind_eq_ok.mp hrun
  obtain ⟨rfl, rfl⟩ := Prod.mk.inj (Except.ok.inj hu)
  exact h.relinksTo (m := .attach slot place) ⟨h.not_mem_of_outside, item, Store.read_eq_ok h.store.use_outside⟩ hattach

theorem relinkedBy_insertAt (h : t.Represents entries o) (item : α) (place : Place) :
    t.RelinkedBy (Tree.insertAt item place) := by
  refine h.relinkedBy_allocate.bind fun answer hanswer => ?_
  obtain ⟨_, hgiven, _, _, ⟨slot, rfl, _, h₁⟩ | ⟨rfl, _⟩⟩ := h.allocate.answer
  · obtain rfl := Except.ok.inj (hanswer.symm.trans hgiven)
    refine (h₁.relinkedBy_construct slot item).bind fun _ _ => ?_
    obtain ⟨_, _, _, _, h₂⟩ := (h₁.construct item).answer
    exact (h₂.relinkedBy_hang place).bind fun _ _ => .pure _
  · obtain rfl := Except.ok.inj (hanswer.symm.trans hgiven)
    exact .pure _

theorem relinkedBy_insertUniqueBy (h : t.Represents entries o) (search : Tree key → κ → Query κ Vacancy) (item : α) :
    t.RelinkedBy (Tree.insertUniqueBy search item) := by
  refine .ask_bind fun vacancy => ?_
  cases vacancy with
  | occupied slot => exact .look_bind fun _ => .pure _
  | vacant place => exact (h.relinkedBy_insertAt item place).bind fun _ _ => .pure _

theorem relinkedBy_insertEqualBy (h : t.Represents entries o) (search : Tree key → κ → Query κ Place) (item : α) :
    t.RelinkedBy (Tree.insertEqualBy search item) :=
  .ask_bind fun place => h.relinkedBy_insertAt item place

theorem relinkedBy_buildNode (h : t.Represents entries o) (build : Unit → Except ε α) :
    t.RelinkedBy (Tree.buildNode build) := by
  refine h.relinkedBy_allocate.bind fun answer hanswer => ?_
  obtain ⟨_, hgiven, _, _, ⟨slot, rfl, _, h₁⟩ | ⟨rfl, _⟩⟩ := h.allocate.answer
  · obtain rfl := Except.ok.inj (hanswer.symm.trans hgiven)
    dsimp only
    obtain ⟨calls, result⟩ := Built.call build 0
    cases result with
    | error failure =>
      exact h₁.relinkedBy_giveBack.bind fun _ _ => .pure _
    | ok item =>
      exact (h₁.relinkedBy_construct slot item).bind fun _ _ => .pure _
  · obtain rfl := Except.ok.inj (hanswer.symm.trans hgiven)
    exact .pure _

/-- Where building an item came to a node, that lies outside the tree and is
    still to be hung or released. -/
theorem relinkedBy_built {next : Built ε (Slot × α) → Op key ρ} (h : t.Represents entries o) (build : Unit → Except ε α)
    (hfailed : ∀ (u : Tree key) calls failure, u.RelinkedBy (next { calls, result := .error failure }))
    (hbuilt : ∀ (u : Tree key) slot item, u.Represents entries (o.add slot (some item)) →
      u.RelinkedBy (next { calls := 1, result := .ok (slot, item) })) :
    t.RelinkedBy (Tree.buildNode build >>= next) := by
  refine (h.relinkedBy_buildNode build).bind fun built hrun => ?_
  obtain ⟨b, hb, _, ⟨rfl, _⟩ | ⟨_, _, rfl, _⟩ | ⟨slot, item, _, rfl, _, h₁⟩⟩ := (h.buildNode build).answer
  · obtain rfl := Except.ok.inj (hrun.symm.trans hb)
    exact hfailed _ _ _
  · obtain rfl := Except.ok.inj (hrun.symm.trans hb)
    exact hfailed _ _ _
  · obtain rfl := Except.ok.inj (hrun.symm.trans hb)
    exact hbuilt _ slot item h₁

theorem relinkedBy_insertUniqueWithBy (h : t.Represents entries o) (search : Tree key → κ → Query κ Vacancy)
    (build : Unit → Except ε α) : t.RelinkedBy (Tree.insertUniqueWithBy search build) := by
  refine h.relinkedBy_built build (fun u calls failure => .pure _) fun u slot item h₁ => ?_
  refine .ask_bind fun vacancy => ?_
  cases vacancy with
  | occupied other => exact h₁.relinkedBy_release.bind fun _ _ => .look_bind fun _ => .pure _
  | vacant place => exact (h₁.relinkedBy_hang place).bind fun _ _ => .pure _

theorem relinkedBy_insertEqualWithBy (h : t.Represents entries o) (search : Tree key → κ → Query κ Place)
    (build : Unit → Except ε α) : t.RelinkedBy (Tree.insertEqualWithBy search build) := by
  refine h.relinkedBy_built build (fun u calls failure => .pure _) fun u slot item h₁ => ?_
  exact .ask_bind fun place => (h₁.relinkedBy_hang place).bind fun _ _ => .pure _

/-- The node in a slot is unlinked and its slot given back; where the slot is
    none of the tree nothing is done. -/
theorem relinkedBy_eraseSlot (h : t.Represents entries o) (slot : Slot) : t.RelinkedBy (Tree.eraseSlot slot) := by
  by_cases hmem : slot ∈ t.shape.slots
  · obtain ⟨before, item, after, rfl⟩ := h.exists_entry hmem
    obtain ⟨u, hdetach, _, hsize, _, hrep⟩ := h.detach
    have hcount : checkedSub u.size 1 = .ok (u.size - 1) := by
      rw [checkedSub, if_pos]
      rw [hsize, h.size, List.length_append, List.length_cons]
      omega
    have hunlink : (Move.unlink slot).act t = .ok { u with size := u.size - 1 } := by
      rw [Move.act, hdetach, ok_bind, hcount]
      rfl
    rw [RelinkedBy, Tree.eraseSlot, run_step_bind (by rw [hdetach, ok_bind, hcount]; rfl)]
    exact (h.relinksTo (m := .unlink slot) trivial hunlink).trans hrep.relinkedBy_release
  · refine RelinkedBy.bind (.step fun _ u hrun => ?_) fun x hanswer => ?_
    · simp [detach_of_not_mem hmem] at hrun
    · simp [Action.run, Action.step, detach_of_not_mem hmem] at hanswer

theorem relinkedBy_clear (h : t.Represents entries o) : t.RelinkedBy Tree.clear := by
  have hteardown : t.RelinkedBy (Action.step fun t => do
      let store ← t.shape.releaseAll t.store
      return ((), { t with shape := .nil, leftmost := none, rightmost := none, size := 0, store }) : Op key Unit) := by
    refine .step fun _ u hrun => ?_
    obtain ⟨store, hstore, hu⟩ := bind_eq_ok.mp hrun
    obtain ⟨_, rfl⟩ := Prod.mk.inj (Except.ok.inj hu)
    exact h.relinksTo (m := .clear) trivial (by rw [Move.act, hstore]; rfl)
  refine .look_bind fun size => ?_
  split
  · exact (RelinkedBy.note _).bind fun _ _ => hteardown
  · exact hteardown

theorem relinkedBy_eraseUpTo (h : t.Represents entries o) (last : Option Slot) (fuel : Nat) (start : Option Slot) :
    t.RelinkedBy (Tree.eraseUpTo last fuel start) := by
  induction fuel generalizing t entries start with
  | zero =>
    cases start with
    | none => unfold Tree.eraseUpTo; split; exacts [.pure _, .fail _]
    | some slot => exact .pure _
  | succ fuel ih =>
    cases start with
    | none => unfold Tree.eraseUpTo; split; exacts [.pure _, .fail _]
    | some slot =>
      rw [Tree.eraseUpTo]
      split
      · exact .pure _
      · refine .look_bind fun after => (h.relinkedBy_eraseSlot slot).bind fun item hitem => ?_
        obtain ⟨before, found, rest, rfl⟩ := h.exists_entry (mem_of_eraseSlot hitem)
        obtain ⟨_, _, _, _, hrep⟩ := h.eraseSlot.answer
        exact ih hrep after

theorem relinkedBy_eraseRange (h : t.Represents entries o) (first last : Position) :
    t.RelinkedBy (Tree.eraseRange first last) := by
  refine .look_bind fun lower => .look_bind fun upper => .look_bind fun u => ?_
  split
  · exact h.relinkedBy_clear.bind fun _ _ => .look _
  · exact (h.relinkedBy_eraseUpTo _ _ _).bind fun _ _ => .pure _

theorem relinkedBy_erase (h : t.Represents entries o) (p : Position) : t.RelinkedBy (Tree.erase p) := by
  refine .look_bind fun slot => ?_
  cases slot with
  | none => exact .fail _
  | some slot => exact .look_bind fun _ => (h.relinkedBy_eraseSlot slot).bind fun _ _ => .look_bind fun _ => .pure _

theorem relinkedBy_pop (h : t.Represents entries o) (atEnd : Tree key → Option Slot) :
    t.RelinkedBy (do
      let t ← .look .ok
      if t.isEmpty then return none
      else return some (← Tree.eraseSlot (← .look fun t => dereference (atEnd t))) : Op key (Option α)) := by
  refine .look_bind fun u => ?_
  split
  · exact .pure _
  · exact .look_bind fun slot => (h.relinkedBy_eraseSlot slot).bind fun _ _ => .pure _

/-- Whatever is asked of a tree, be it legal or not, is done by such writes,
    also where it is refused or stops. -/
theorem relinkedBy_command (h : t.Represents entries o) (c : Command α κ ε) :
    t.RelinkedBy (c.run : Op key (Reply α ε)) := by
  cases c with
  | insertUnique item => exact (h.relinkedBy_insertUniqueBy _ item).map _
  | insertEqual item => exact (h.relinkedBy_insertEqualBy _ item).map _
  | insertUniqueHint hint item => exact (RelinkedBy.look_bind fun _ => h.relinkedBy_insertUniqueBy _ item).map _
  | insertEqualHint hint item => exact (RelinkedBy.look_bind fun _ => h.relinkedBy_insertEqualBy _ item).map _
  | insertUniqueWith build => exact (h.relinkedBy_insertUniqueWithBy _ build).map _
  | insertEqualWith build => exact (h.relinkedBy_insertEqualWithBy _ build).map _
  | insertUniqueHintWith hint build =>
    exact (RelinkedBy.look_bind fun _ => h.relinkedBy_insertUniqueWithBy _ build).map _
  | insertEqualHintWith hint build =>
    exact (RelinkedBy.look_bind fun _ => h.relinkedBy_insertEqualWithBy _ build).map _
  | find | contains | lowerBound | upperBound => exact (RelinkedBy.ask _).map _
  | erase p => exact (h.relinkedBy_erase p).map _
  | remove p => exact ((h.relinkedBy_erase p).bind fun _ _ => .pure _).map _
  | eraseRange first last => exact (h.relinkedBy_eraseRange first last).map _
  | eraseKey k =>
    refine RelinkedBy.map ?_ _
    refine .ask_bind fun range => .look_bind fun size => ?_
    exact (h.relinkedBy_eraseRange _ _).bind fun _ _ => .look _
  | popFirst => exact (h.relinkedBy_pop Tree.leftmost).map _
  | popLast => exact (h.relinkedBy_pop Tree.rightmost).map _
  | clear => exact h.relinkedBy_clear.map _

end Represents

end Tree

end RedBlack
