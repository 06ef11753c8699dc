import RedBlack.Proofs.Tree.Lookups
import RedBlack.Proofs.Tree.Stability

namespace RedBlack

/-- What a list has at an index outside of a part is still there without that
    part. -/
theorem mem_of_getElem?_outside {β : Type} {before between after : List β} {x : β} {g : Nat}
    (hx : (before ++ between ++ after)[g]? = some x) (hg : g < before.length ∨ (before ++ between).length ≤ g) :
    x ∈ before ++ after := by
  obtain hlower | hupper := hg
  · rw [List.append_assoc, List.getElem?_append_left hlower] at hx
    exact List.mem_append_left _ (List.mem_of_getElem? hx)
  · rw [List.getElem?_append_right hupper] at hx
    exact List.mem_append_right _ (List.mem_of_getElem? hx)

namespace Tree

open RedBlack.Action

variable {α κ ε : Type} {key : α → κ} {t u : Tree key} {entries before between after : List (Slot × α)} {o : Outside α}
  {p first last : Position} {k : κ}

/-- What is left of a tree with the given entries once those with the indices
    from `i` up to `j` are erased: the other entries in their slots and in their
    order, and just the slots of these are free. -/
structure ErasedBetween (t : Tree key) (entries : List (Slot × α)) (i j : Nat) (u : Tree key) : Prop where
  continues : u.Continues t
  listing : u.listing = .ok (entries.take i ++ entries.drop j)
  /-- Every other position names what it named. -/
  names : ∀ g ≤ entries.length, g < i ∨ j ≤ g → u.LiveOrEnd (t.nth g) ∧ u.get (t.nth g) = t.get (t.nth g)
  gone : ∀ g, i ≤ g → g < j → ¬ u.LiveOrEnd (t.nth g)
  released : t.store.Released (((entries.take j).drop i).map Prod.fst) u.store

/-- What is left of a tree whose entries are all gone. -/
structure Emptied (t u : Tree key) : Prop where
  tree : u = .empty key t.less u.store t.tag
  released : t.store.Released t.shape.slots u.store

/-- Erases the items at the positions given, one after the other. -/
def eraseEach : List Position → Op key (List α)
  | [] => return []
  | p :: rest => do
    let item ← Tree.remove p
    return item :: (← eraseEach rest)

namespace Represents

/-- Erasing a part of the entries leaves all others, each where it was. -/
theorem erasedBetween (h : t.Represents (before ++ between ++ after) o) (hu : u.Continues t)
    (hrep : u.Represents (before ++ after) o) :
    t.ErasedBetween (before ++ between ++ after) before.length (before ++ between).length u := by
  have hslot (g : Nat) : (t.nth g).slot = (before ++ between ++ after)[g]?.map Prod.fst := by
    rw [h.nth_eq]
    rfl
  have hsub : before ++ after ⊆ before ++ between ++ after := List.Sublist.subset (by simp)
  have hbetween : ((before ++ between ++ after).take (before ++ between).length).drop before.length = between := by
    rw [List.take_left, List.drop_left]
  have hreleased := h.store.released hrep.store
  refine ⟨hu, ?_, ?_, ?_, ?_⟩
  · rw [hrep.listing, List.drop_left, List.append_assoc, List.take_left]
  · intro g _ hg
    have hlive : u.LiveOrEnd (t.nth g) := by
      refine ⟨hu.tag.symm, ?_⟩
      intro slot hnth
      rw [hslot, Option.map_eq_some_iff] at hnth
      obtain ⟨e, he, rfl⟩ := hnth
      rw [hrep.slots]
      exact List.mem_map_of_mem (mem_of_getElem?_outside he hg)
    exact ⟨hlive, get_eq_of_subset h hu hrep hsub hlive⟩
  · intro g hlower hupper
    have hlt : g - before.length < between.length := by
      rw [List.length_append] at hupper
      omega
    have hget : (before ++ between ++ after)[g]? = some between[g - before.length] := by
      rw [List.getElem?_append_left hupper, List.getElem?_append_right hlower, List.getElem?_eq_getElem hlt]
    have hfree := hreleased.freed _ (List.mem_map_of_mem (List.getElem_mem hlt))
    exact hrep.not_liveOrEnd_of_free hfree (by rw [hslot, hget]; rfl)
  · rwa [hbetween]

theorem eq_empty (h : t.Represents [] o) : t = .empty key t.less t.store t.tag := by
  have hshape : t.shape = .nil := Shape.slots_eq_nil.mp h.slots
  have hleftmost : t.leftmost = none := h.leftmost
  have hrightmost : t.rightmost = none := h.rightmost
  have hsize : t.size = 0 := h.size
  cases t
  simp_all [Tree.empty]

theorem emptied (h : t.Represents entries o) (hu : u.Continues t) (hrep : u.Represents [] o) : t.Emptied u := by
  have htree := hrep.eq_empty
  rw [hu.less, hu.tag] at htree
  refine ⟨htree, ?_⟩
  rw [h.slots]
  have hstore : t.store.Holds ([] ++ entries ++ []) o := by simpa using h.store
  exact hstore.released hrep.store

/-- Whatever the order in which its items are erased, a tree is empty in the
    end. -/
theorem eraseEach {order : List (Slot × α)} (h : t.Represents entries o) (hperm : order.Perm entries) :
    (Tree.eraseEach (order.map fun e => t.position (some e.1)) : Op key (List α)).Yields t fun items u =>
      items = order.map Prod.snd ∧ u.Continues t ∧ u.Represents [] o := by
  induction order generalizing t entries with
  | nil =>
    obtain rfl := List.nil_perm.mp hperm
    exact ⟨rfl, .refl t, h⟩
  | cons e rest ih =>
    obtain ⟨before, after, rfl⟩ := List.append_of_mem (hperm.mem_iff.mp List.mem_cons_self)
    have hrest : rest.Perm (before ++ after) := (List.perm_cons e).mp (hperm.trans List.perm_middle)
    rw [List.map_cons, Tree.eraseEach, Yields, wp_bind]
    refine (h.remove rfl rfl).mono ?_
    rintro _ u ⟨rfl, hu, hrep⟩
    have hmore := ih hrep hrest
    simp only [hu.position] at hmore
    rw [wp_bind]
    refine hmore.mono ?_
    rintro _ v ⟨rfl, hv, hdone⟩
    exact ⟨rfl, hv.trans hu, hdone⟩

/-- Erasing one by one from the first item on empties a tree as well. -/
theorem eraseUpTo_end (h : t.Represents entries o) :
    (Tree.eraseUpTo none (t.size + 1) t.leftmost : Op key Unit).Yields t fun _ u =>
      u.Continues t ∧ u.Represents [] o := by
  have hall : t.Represents ([] ++ entries ++ []) o := by simpa using h
  have hfuel : entries.length < t.size + 1 := by
    rw [h.size]
    omega
  have hrun := hall.eraseUpTo hfuel
  rw [List.append_nil, ← h.leftmost] at hrun
  exact hrun

theorem clear_nil (h : t.Represents [] o) : (Tree.clear : Op key Unit).Yields t fun _ u => u = t := by
  rw [h.eq_empty]
  exact rfl

theorem eraseRange_same (h : t.Represents entries o) (hp : p.tag = t.tag) :
    (Tree.eraseRange p p : Op key Position).Yields t fun answer u => answer = p ∧ u = t := by
  rw [Tree.eraseRange, Yields, wp_bind, wp_owned hp, wp_bind, wp_owned hp, wp_bind, wp_look_ok (s := t) rfl]
  obtain ⟨slot, tag⟩ := p
  obtain rfl : tag = t.tag := hp
  split
  · next hall =>
    obtain ⟨hleft, rfl⟩ : slot = t.leftmost ∧ slot = none := hall
    obtain rfl : entries = [] := by simpa using (hleft.trans h.leftmost).symm
    rw [wp_bind]
    refine h.clear_nil.mono ?_
    rintro _ u rfl
    exact ⟨rfl, rfl⟩
  · rw [wp_bind]
    cases slot with
    | none => exact ⟨rfl, rfl⟩
    | some slot =>
      rw [Tree.eraseUpTo, if_pos rfl]
      exact ⟨rfl, rfl⟩

theorem eraseKey_none (h : t.Represents entries o) (hless : StrictWeak t.less) (hsorted : Sorted t.less key entries)
    (hnone : entries.countP (fun e => RedBlack.alike t.less k (key e.2)) = 0) :
    (Tree.eraseKey k : Op key Nat).Yields t fun _ u => u = t := by
  obtain ⟨lower, middle, upper, rfl, hbounds⟩ := h.bounds hless hsorted k
  rw [hbounds.parted.countP_eq] at hnone
  obtain rfl := List.length_eq_zero_iff.mp hnone
  have hrange : (t.equalRange k).answer = .ok (t.position (upper.head?.map Prod.fst),
      t.position (upper.head?.map Prod.fst)) := by
    simp [Tree.equalRange, hbounds.lowerBound, hbounds.upperBound]
  rw [Tree.eraseKey, Yields, wp_bind, wp_ask_ok (s := t) hrange]
  simp only
  rw [wp_bind, wp_view, wp_bind]
  refine (h.eraseRange_same rfl).mono ?_
  rintro _ u ⟨_, rfl⟩
  have hcount : checkedSub u.size u.size = .ok 0 := by rw [checkedSub, if_pos (Nat.le_refl _), Nat.sub_self]
  rw [wp_look_ok (s := u) hcount]

end Represents

/-- What erasing a range comes to: its part of the entries is gone, and its end
    is given back and still good. -/
structure ErasesRange (t : Tree key) (entries : List (Slot × α)) (i j : Nat) (first last : Position) : Prop where
  ordered : i ≤ j ∧ j ≤ entries.length
  begins : first = t.nth i
  ends : last = t.nth j
  answer : ((eraseRange first last).run t).answer = .ok last
  good : ((eraseRange first last).run t).state.LiveOrEnd last
  left : t.ErasedBetween entries i j ((eraseRange first last).run t).state

/-- Two trees that differ at most in how their stores keep the slots that are
    free. -/
structure SameToSee (u v : Tree key) : Prop where
  tree : v = { u with store := v.store }
  use : v.store.use = u.store.use
  surplus : v.store.surplus = u.store.surplus

/-- The range of all items is torn down at once. That leaves what erasing the
    items one by one leaves, from the first one on or in any other order. -/
structure TearsDown (t : Tree key) (entries : List (Slot × α)) : Prop where
  answer : ((eraseRange t.start t.finish).run t).answer = .ok t.finish
  emptied : t.Emptied ((eraseRange t.start t.finish).run t).state
  loop : ((eraseUpTo none (t.size + 1) t.leftmost).run t).answer = .ok () ∧
    ((eraseRange t.start t.finish).run t).state.SameToSee ((eraseUpTo none (t.size + 1) t.leftmost).run t).state
  each : ∀ order : List (Slot × α), order.Perm entries →
    ((eraseEach (order.map fun e => t.position (some e.1))).run t).answer = .ok (order.map Prod.snd) ∧
      ((eraseRange t.start t.finish).run t).state.SameToSee
        ((eraseEach (order.map fun e => t.position (some e.1))).run t).state

/-- What erasing by key comes to: the `n` items with an equivalent key are
    gone. -/
structure ErasesKey (t : Tree key) (entries : List (Slot × α)) (k : κ) (n : Nat) : Prop where
  count : (t.count k).answer = .ok n
  number : n = entries.countP fun e => alike t.less k (key e.2)
  answer : ((eraseKey k).run t).answer = .ok n
  listing : ((eraseKey k).run t).state.listing = .ok (entries.filter fun e => !alike t.less k (key e.2))
  left : t.ErasedBetween entries (t.lowerIndex k entries) (t.upperIndex k entries) ((eraseKey k).run t).state
  none : n = 0 → ((eraseKey k).run t).state = t

theorem Emptied.sameToSee {v : Tree key} (hu : t.Emptied u) (hv : t.Emptied v) : u.SameToSee v where
  tree := by
    have htree := hv.tree
    rw [hu.tree]
    exact htree
  use := by
    funext slot
    by_cases hslot : slot ∈ t.shape.slots
    · rw [hu.released.freed slot hslot, hv.released.freed slot hslot]
    · rw [hu.released.others slot hslot, hv.released.others slot hslot]
  surplus := by rw [hu.released.counted, hv.released.counted]

namespace Represents

theorem erasesRange (h : t.Represents entries o) (hrange : t.InOrder first last) :
    ∃ i j, t.ErasesRange entries i j first last := by
  obtain ⟨before, between, after, rfl, hfirst, hlast, hlower, hupper⟩ := h.range_of_inOrder hrange
  obtain ⟨p, hanswer, hp, hu, hrep⟩ := (h.eraseRange hfirst hlast hlower hupper).answer
  rw [hp] at hanswer
  have hleft := h.erasedBetween hu hrep
  have hj : (before ++ between).length ≤ (before ++ between ++ after).length := by simp
  have hnthLast : last = t.nth (before ++ between).length := by
    rw [h.nth_length, ← hupper, Tree.position, ← hlast]
  have hnthFirst : first = t.nth before.length := by
    rw [List.append_assoc] at h
    rw [h.nth_length, ← hlower, Tree.position, ← hfirst]
  refine ⟨before.length, (before ++ between).length, ⟨by simp, hj⟩, hnthFirst, hnthLast, hanswer, ?_, hleft⟩
  have hgood := (hleft.names _ hj (.inr (Nat.le_refl _))).1
  rwa [← hnthLast] at hgood

theorem tearsDown (h : t.Represents entries o) : t.TearsDown entries := by
  have hall : t.Represents ([] ++ entries ++ []) o := by simpa using h
  have hstart : t.start.slot = (entries ++ []).head?.map Prod.fst := by
    rw [List.append_nil]
    exact h.leftmost
  have hrun := hall.eraseRange rfl rfl hstart (show t.finish.slot = none from rfl)
  obtain ⟨_, hanswer, rfl, hu, hrep⟩ := hrun.answer
  have hemptied := h.emptied hu hrep
  refine ⟨hanswer, hemptied, ?_, ?_⟩
  · obtain ⟨_, hloop, hv, hdone⟩ := h.eraseUpTo_end.answer
    exact ⟨hloop, hemptied.sameToSee (h.emptied hv hdone)⟩
  · intro order hperm
    obtain ⟨_, heach, rfl, hv, hdone⟩ := (h.eraseEach hperm).answer
    exact ⟨heach, hemptied.sameToSee (h.emptied hv hdone)⟩

theorem erasesKey (h : t.Represents entries o) (hless : StrictWeak t.less) (hsorted : Sorted t.less key entries)
    (k : κ) : ∃ n, t.ErasesKey entries k n := by
  have hnone := h.eraseKey_none (k := k) hless hsorted
  have hcount := h.count_alike hless hsorted k
  obtain ⟨_, hanswer, lower, middle, upper, rfl, rfl, hbegins, hends, hu, hrep⟩ := (h.eraseKey hless k).answer
  have hparted := hbegins.parted hless hsorted hends
  have hleft := h.erasedBetween hu hrep
  rw [← lowerIndex_parted hless hparted, ← upperIndex_parted hless hparted] at hleft
  refine ⟨middle.length, ?_, hparted.countP_eq.symm, hanswer, ?_, hleft, ?_⟩
  · rw [hcount, hparted.countP_eq]
  · rw [hrep.listing, hparted.filter_not_eq]
  · intro hzero
    obtain ⟨_, _, hsame⟩ := (hnone (hparted.countP_eq.trans hzero)).answer
    exact hsame

end Represents

/-- A range of positions is erased as the part of the entries that lies between
    them. No other entry changes its slot or its place, just the slots of that
    part are free again, and the position that was the end of the range is given
    back and still good. A tree that is torn down as a whole is left as it is
    when its items are erased one by one. Under a comparator that orders,
    erasing by key erases what is equivalent, as many items as were counted
    before, and does nothing where there are none. -/
theorem erases_segments :
    (∀ (f : Forest key) (t : Tree key), (f.Reachable fun f (c : Forest.Command α κ ε) => c.OnLive f) → t ∈ f.trees →
      ∃ entries, t.listing = .ok entries ∧ t.TearsDown entries ∧
        ∀ first last, t.InOrder first last → ∃ i j, t.ErasesRange entries i j first last) ∧
    ∀ (f : Forest key) (t : Tree key),
      (f.Reachable fun f (c : Forest.Command α κ ε) => c.OnLive f ∧ c.KeepsOrder f) → t ∈ f.trees →
      ∃ entries, t.listing = .ok entries ∧ ∀ k, ∃ n, t.ErasesKey entries k n := by
  constructor
  · intro f t hf ht
    obtain ⟨entries, o, h⟩ := hf.represents_onLive ht
    exact ⟨entries, h.listing, h.tearsDown, fun _ _ => h.erasesRange⟩
  · intro f t hf ht
    obtain ⟨entries, o, h, hless, hsorted⟩ := hf.represents_sorted ht
    exact ⟨entries, h.listing, h.erasesKey hless hsorted⟩

/-- Among 1, 3, 3 and 5, the range from slot 2 up to slot 0 holds the two items
    3. Erased by position or by key, they leave 1 and 5. No item is a 4, and
    erasing that changes nothing. Erased in the order of their slots, the four
    items leave what the teardown leaves. -/
theorem erases_segments_duplicates :
    ∃ t : Tree (id : Nat → Nat), t.listing = .ok [(1, 1), (2, 3), (3, 3), (0, 5)] ∧
      (∃ i j, t.ErasesRange [(1, 1), (2, 3), (3, 3), (0, 5)] i j ⟨some 2, 1⟩ ⟨some 0, 1⟩) ∧
      ((eraseRange ⟨some 2, 1⟩ ⟨some 0, 1⟩).run t).state.listing = .ok [(1, 1), (0, 5)] ∧
      ((eraseKey 3).run t).answer = .ok 2 ∧ ((eraseKey 3).run t).state.listing = .ok [(1, 1), (0, 5)] ∧
      ((eraseKey 4).run t).state = t ∧
      ((eraseRange t.start t.finish).run t).state.SameToSee
        ((eraseEach [⟨some 0, 1⟩, ⟨some 1, 1⟩, ⟨some 2, 1⟩, ⟨some 3, 1⟩]).run t).state := by
  have h₀ : Forest.Reachable (fun f (c : Forest.Command Nat Nat Empty) => c.OnLive f ∧ c.KeepsOrder f)
    (.empty (id : Nat → Nat)) := .empty
  have h₁ := h₀.step (c := .plant (fun a b => decide (a < b)) (.arena .empty))
    ⟨Arena.sound_empty, StrictWeak.decide_lt⟩
  have h₂ := h₁.step (c := .onTree 0 (.insertEqual 5)) ⟨⟨_, rfl, nofun⟩, trivial⟩
  have h₃ := h₂.step (c := .onTree 0 (.insertEqual 1)) ⟨⟨_, rfl, nofun⟩, trivial⟩
  have h₄ := h₃.step (c := .onTree 0 (.insertEqual 3)) ⟨⟨_, rfl, nofun⟩, trivial⟩
  have h₅ := h₄.step (c := .onTree 0 (.insertEqual 3)) ⟨⟨_, rfl, nofun⟩, trivial⟩
  have hlive : Forest.Reachable (fun f (c : Forest.Command Nat Nat Empty) => c.OnLive f) _ :=
    h₅.mono fun _ _ hallowed => hallowed.1
  obtain ⟨hranges, hkeys⟩ := @erases_segments Nat Nat Empty id
  obtain ⟨entries, hlisting, htears, hrange⟩ := hranges _ _ hlive (Array.mem_of_getElem? (i := 0) rfl)
  obtain rfl : entries = [(1, 1), (2, 3), (3, 3), (0, 5)] := Except.ok.inj (hlisting.symm.trans (by decide +kernel))
  obtain ⟨others, hothers, hkey⟩ := hkeys _ _ h₅ (Array.mem_of_getElem? (i := 0) rfl)
  obtain rfl := Except.ok.inj (hothers.symm.trans hlisting)
  obtain ⟨i, j, herased⟩ := hrange ⟨some 2, 1⟩ ⟨some 0, 1⟩
    ⟨by decide +kernel, by decide +kernel, [1], [2, 3], [0], by decide +kernel, rfl, rfl⟩
  obtain ⟨n, hthree⟩ := hkey 3
  obtain ⟨m, hfour⟩ := hkey 4
  obtain rfl : n = 2 := hthree.number
  obtain rfl : m = 0 := hfour.number
  have horder : [((0, 5) : Slot × Nat), (1, 1), (2, 3), (3, 3)].Perm [(1, 1), (2, 3), (3, 3), (0, 5)] := by decide
  exact ⟨_, hlisting, ⟨i, j, herased⟩, by decide +kernel, hthree.answer, hthree.listing, hfour.none rfl,
    (htears.each _ horder).2⟩

end Tree

end RedBlack
