import RedBlack.Proofs.Tree.Commands
import RedBlack.Proofs.Tree.Walk
import RedBlack.Tree.View

namespace RedBlack

namespace Tree

open RedBlack.Action

variable {α κ ρ υ : Type} {key : α → κ} {t u v : Tree key} {entries before after : List (Slot × α)}
  {o : Outside α} {slot : Slot} {item : α} {p : Position}

/-- The tree is in a later state of the given one, with any entries beside the
    same things. -/
def Kept (t : Tree key) (o : Outside α) (u : Tree key) : Prop :=
  u.Continues t ∧ ∃ left : List (Slot × α), u.Represents left o

/-- An operation that stopped for want of a slot, and what it left. -/
def StoppedFull (t : Tree key) (o : Outside α) (fault : Fault) (u : Tree key) : Prop :=
  fault = .allocationFailed ∧ ¬ u.store.HasRoom ∧ t.Kept o u

theorem Kept.trans (hu : t.Kept o u) (hv : u.Kept o v) : t.Kept o v :=
  ⟨hv.1.trans hu.1, hv.2⟩

theorem Kept.stopped {fault : Fault} (hu : t.Kept o u) (hv : u.StoppedFull o fault v) :
    t.StoppedFull o fault v :=
  ⟨hv.1, hv.2.1, hu.trans hv.2.2⟩

theorem ChangedFrom.toKept (h : t.ChangedFrom entries o u) : t.Kept o u := by
  obtain ⟨hu, left, hrep, _⟩ := h
  exact ⟨hu, left, hrep⟩

/-- All of a tree but its items is as it was: its nodes in their slots with
    their links and colours, its ends, its size, and how many slots its store
    ever handed out. -/
structure SameLinks (t u : Tree key) : Prop where
  shape : u.shape = t.shape
  leftmost : u.leftmost = t.leftmost
  rightmost : u.rightmost = t.rightmost
  size : u.size = t.size
  capacity : u.store.capacity = t.store.capacity

theorem wp_demand {answer : Except AllocError ρ} {done : ρ → Tree key → Prop}
    {stopped : Fault → Tree key → Prop} :
    (demand answer : Op key ρ).wp done stopped t ↔
      match answer with
      | .ok value => done value t
      | .error _ => stopped .allocationFailed t := by
  cases answer <;> exact Iff.rfl

/-- Changing the item at a live position changes no other entry, and no link. -/
theorem Represents.modify (h : t.Represents (before ++ (slot, item) :: after) o) (htag : p.tag = t.tag)
    (hslot : p.slot = some slot) (change : α → α) :
    (modify p change : Op key Unit).Yields t fun _ u =>
      u.Continues t ∧ t.SameLinks u ∧ u.Represents (before ++ (slot, change item) :: after) o := by
  obtain ⟨store, hrun, hstore⟩ := h.store.write (change item)
  have hown : t.own p = .ok (some slot) := by rw [own, if_pos htag, hslot]
  have hitem : t.itemAt slot = .ok item := h.itemAt (e := (slot, item)) (by simp)
  rw [Tree.modify, Yields, wp_step_ok (by simp only [hown, ok_bind, hitem, hrun]; rfl)]
  refine ⟨⟨rfl, rfl⟩, ⟨rfl, rfl, rfl, rfl, Store.capacity_write hrun⟩, ?_⟩
  constructor
  · simpa using h.slots
  · exact hstore
  · exact h.shape
  · rw [h.leftmost]
    cases before <;> rfl
  · rw [h.rightmost]
    cases after using List.reverseRecOn <;> simp [List.getLast?_append, List.getLast?_cons]
  · simpa using h.size

theorem wp_modify_end {done : Unit → Tree key → Prop} {stopped : Fault → Tree key → Prop}
    (htag : p.tag = t.tag) (hslot : p.slot = none) (change : α → α) :
    (modify p change : Op key Unit).wp done stopped t ↔ done () t := by
  have hown : t.own p = .ok none := by rw [own, if_pos htag, hslot]
  rw [Tree.modify, wp_step_ok (by rw [hown, ok_bind]; rfl)]

theorem Represents.demand_insertion {answer : Except AllocError (Position × Bool)}
    (h : t.UniqueInsertion entries o item answer u) {next : Position × Bool → Op key ρ}
    {done : ρ → Tree key → Prop} {stopped : Fault → Tree key → Prop}
    (hok : ∀ value, answer = .ok value → (next value).wp done stopped u)
    (hfull : ¬ u.store.HasRoom → u.Continues t → u.Represents entries o → stopped .allocationFailed u) :
    (demand answer >>= next : Op key ρ).wp done stopped u := by
  rw [wp_bind, wp_demand]
  cases h with
  | vacant hinsertion =>
    cases hinsertion with
    | inserted => exact hok _ rfl
    | refused hroom hu hrep => exact hfull hroom hu hrep
  | occupied => exact hok _ rfl

section Keeps

variable {σ β : Type} {tree : σ → Tree key} {s : σ} {a : Action σ κ ρ}

/-- The operation keeps the tree that a state has, and stops only for want of a
    slot, as an operation does that reports no errors. -/
def Keeps (tree : σ → Tree key) (o : Outside α) (a : Action σ κ ρ) (s : σ) : Prop :=
  a.wp (fun _ n => (tree s).Kept o (tree n)) (fun fault n => (tree s).StoppedFull o fault (tree n)) s

theorem Keeps.map (h : Keeps tree o a s) (f : ρ → υ) : Keeps tree o (f <$> a) s := by
  rw [Keeps, wp_map]
  exact h

/-- An operation on the tree of a state keeps it if it keeps the tree by
    itself. -/
theorem Keeps.within {put : Tree key → σ → σ} (hput : ∀ t s, tree (put t s) = t) {op : Op key ρ}
    (h : Keeps (fun t => t) o op (tree s)) : Keeps tree o (op.within tree put) s := by
  rw [Keeps, wp_within]
  simp only [hput]
  exact h

theorem Keeps.state (h : Keeps tree o a s) : (tree s).Kept o (tree (a.run s).state) :=
  state_of_wp (wp_mono h (fun _ _ hkept => hkept) fun _ _ hstopped => hstopped.2.2)

theorem Keeps.full (h : Keeps tree o a s) (hlimits : o.limits = false) {fault : Fault}
    (hfault : (a.run s).answer = .error fault) :
    fault = .allocationFailed ∧ ¬ (tree (a.run s).state).store.base.HasRoom := by
  rw [Keeps, wp, hfault] at h
  obtain ⟨hfull, hroom, _, left, hleft⟩ := h
  rw [Store.hasRoom_iff (hleft.store.limits.trans hlimits)] at hroom
  exact ⟨hfull, hroom⟩

namespace Represents

theorem keeps_ask {question : σ → Query κ ρ} {answer : ρ} (h : (tree s).Represents entries o)
    (hanswer : (question s).answer = .ok answer) : Keeps tree o (ask question) s := by
  rw [Keeps, wp_ask_ok hanswer]
  exact ⟨.refl _, entries, h⟩

theorem keeps_look {view : σ → Except Fault ρ} {answer : ρ} (h : (tree s).Represents entries o)
    (hanswer : view s = .ok answer) : Keeps tree o (look view) s := by
  rw [Keeps, wp_look_ok hanswer]
  exact ⟨.refl _, entries, h⟩

/-- A step that keeps every tree may be taken once for each item of a list. -/
theorem keeps_forM {step : β → Action σ κ Unit} (h : (tree s).Represents entries o)
    (hstep : ∀ b n left, (tree n).Represents left o → Keeps tree o (step b) n) (items : List β) :
    Keeps tree o (items.forM step) s := by
  induction items generalizing s entries with
  | nil => exact ⟨.refl _, entries, h⟩
  | cons b rest ih =>
    change (step b >>= fun _ => rest.forM step).wp _ _ s
    rw [wp_bind]
    refine wp_mono (hstep b s entries h) ?_ fun _ _ hstopped => hstopped
    intro _ n hn
    obtain ⟨left, hleft⟩ := hn.2
    exact wp_mono (ih hleft) (fun _ _ hkept => hn.trans hkept) fun _ _ hstopped => hn.stopped hstopped

theorem keeps_insertUnique (h : t.Represents entries o) (item : α) :
    Keeps (fun t => t) o (do return (← demand (← Tree.insertUnique item)).2 : Op key Bool) t := by
  rw [Keeps, wp_bind]
  refine (h.insertUnique item).mono ?_
  intro answer u hinsertion
  refine demand_insertion hinsertion ?_ ?_
  · intro value _
    exact hinsertion.changedFrom.toKept
  · intro hroom hu hrep
    exact ⟨rfl, hroom, hu, entries, hrep⟩

theorem keeps_popFirst (h : t.Represents entries o) : Keeps (fun t => t) o (Tree.popFirst : Op key (Option α)) t := by
  refine h.popFirst.mono ?_
  rintro _ u ⟨_, hu, hrep⟩
  exact ⟨hu, _, hrep⟩

theorem keeps_popLast (h : t.Represents entries o) : Keeps (fun t => t) o (Tree.popLast : Op key (Option α)) t := by
  refine h.popLast.mono ?_
  rintro _ u ⟨_, hu, hrep⟩
  exact ⟨hu, _, hrep⟩

theorem keeps_clear (h : t.Represents entries o) : Keeps (fun t => t) o (Tree.clear : Op key Unit) t := by
  refine h.clear.mono ?_
  rintro _ u ⟨hu, hrep⟩
  exact ⟨hu, _, hrep⟩

end Represents

end Keeps

/-- Two trees that represent entries can be compared item by item. -/
theorem Represents.sameItems [DecidableEq α] {other : List (Slot × α)} {o' : Outside α}
    (h : t.Represents entries o) (hu : u.Represents other o') :
    ∃ answer, t.sameItems u = .ok answer := by
  rw [Tree.sameItems, Tree.sameItemsBy]
  split
  · exact ⟨_, by rw [h.items, hu.items]; rfl⟩
  · exact ⟨_, rfl⟩

theorem Represents.form (h : t.Represents entries o) (brackets : Text.Brackets) (entry : α → Text.Entry)
    (tall : Bool) : ∃ text, t.form brackets entry tall = .ok text :=
  ⟨_, by rw [Tree.form, h.items]; rfl⟩

/-- A drain is followed to the end of every script, and what is left can be
    released. -/
theorem Represents.drain (h : t.Represents entries o) (script : List Side) :
    ∃ items store, ((Drain.follow script).run t.drain).answer = .ok items ∧
      ((Drain.follow script).run t.drain).state.tree.dispose = .ok store ∧ store.Holds [] o := by
  have hdrain : (t.drain : Drain key).tree.Represents entries o := h
  obtain ⟨items, hanswer, _, left, hrep⟩ := (Drain.follow_spec hdrain script).answer
  obtain ⟨store, hdispose, hstore⟩ := hrep.dispose
  exact ⟨items, store, hanswer, hdispose, hstore⟩

end Tree

end RedBlack
