import RedBlack.Proofs.LivePositions
import RedBlack.Proofs.Store.Reuse

namespace RedBlack

namespace Shape

variable {α : Type}

/-- The node is released after its right subtree and before its left one. -/
theorem releaseAll_node (color : Color) (left : Shape) (slot : Slot) (right : Shape) (s : Store α) :
    (node color left slot right).releaseAll s = right.releaseAll s >>= Store.drop slot >>= left.releaseAll := by
  rw [Shape.releaseAll, bind_assoc]
  refine bind_congr fun s₁ => ?_
  rw [Store.drop]
  rcases s₁.deallocate slot with fault | ⟨content, s₂⟩
  · rfl
  · cases content <;> rfl

/-- A subtree is released by giving its slots back, the last one in order
    first. -/
theorem releaseAll_eq_dropEach (t : Shape) (s : Store α) : t.releaseAll s = s.dropEach t.slots.reverse := by
  induction t generalizing s with
  | nil => rfl
  | node color left slot right ihl ihr =>
    have hslots : (node color left slot right).slots.reverse =
        right.slots.reverse ++ slot :: left.slots.reverse := by simp [slots]
    rw [releaseAll_node, hslots, Store.dropEach_append, ihr, bind_assoc]
    refine bind_congr fun s₁ => ?_
    rw [Store.dropEach_cons]
    exact bind_congr ihl

end Shape

namespace Store

variable {α : Type}

/-- The slot that a link leads to, with the links that the node in it holds. -/
def follow (link : Handle) (s : Store (Shape.Links × α)) : Except Fault (Slot × Shape.Links) :=
  match link with
  | .node slot => (s.read slot).map fun node => (slot, node.1)
  | _ => .error (.dereference link)

/-- Releases the node that a link leads to and everything below it, going by the
    links that the nodes themselves hold. They lie in the very slots that are
    given back, so each is read while its node is still there. These may lead
    round in a circle, so no more levels are gone down than the limit says;
    `none` if there are more. -/
def releaseBelow (limit : Nat) (link : Handle) (s : Store (Shape.Links × α)) :
    OptionT (Except Fault) (Store (Shape.Links × α)) :=
  match limit, link with
  | _, .nil => return s
  | 0, _ => failure
  | limit + 1, link => do
    let node ← s.follow link
    let s ← releaseBelow limit node.2.right s
    let node ← s.follow link
    releaseBelow limit node.2.left (← s.drop node.1)

/-- A link leads to the top of a finite subtree: its nodes lie in the store and
    hold links to their children. Their parents and colours may be any. -/
inductive Heads (s : Store (Shape.Links × α)) : Handle → Shape → Prop where
  | nil : s.Heads .nil .nil
  | node {slot : Slot} {node : Shape.Links} {item : α} {color : Color} {left right : Shape} :
    s.read slot = .ok (node, item) → s.Heads node.left left → s.Heads node.right right →
      s.Heads (.node slot) (.node color left slot right)

/-- What becomes of a store to which slots, listed in order, are given back. -/
structure ReleasedInReverse (s : Store α) (slots : List Slot) (t : Store α) : Prop where
  /-- Each is given back once, the last one first, and nothing else is done. -/
  each : s.dropEach slots.reverse = .ok t
  /-- A record of the calls shows just these. -/
  recorded : ∀ below calls, s = .recorded below calls →
    t.calls = calls ++ (slots.reverse.map StoreCall.deallocated).toArray
  freed : ∀ slot ∈ slots, ∃ next, t.base.cells[slot]? = some (.free next)
  /-- Every other slot holds what it held, be it in use or free. -/
  others : ∀ slot, slot ∉ slots → t.base.cells[slot]? = s.base.cells[slot]?

theorem exists_releasedInReverse {s : Store α} {slots : List Slot} (hnodup : slots.Nodup)
    (hbuilt : ∀ slot ∈ slots, ∃ item, s.read slot = .ok item) : ∃ t, s.ReleasedInReverse slots t := by
  obtain ⟨t, ht⟩ := exists_dropEach (List.nodup_reverse.mpr hnodup) fun slot hslot =>
    hbuilt slot (List.mem_reverse.mp hslot)
  obtain ⟨hfreed, hothers⟩ := cells_of_dropEach ht
  refine ⟨t, ht, ?_, ?_, ?_⟩
  · rintro below calls rfl
    exact calls_dropEach ht
  · exact fun slot hslot => hfreed slot (List.mem_reverse.mpr hslot)
  · exact fun slot hslot => hothers slot fun hmem => hslot (List.mem_reverse.mp hmem)

namespace ReleasedInReverse

variable {s t : Store α} {slots supply : List Slot} {shape : Shape}

theorem releaseAll (h : s.ReleasedInReverse shape.slots t) : shape.releaseAll s = .ok t := by
  rw [Shape.releaseAll_eq_dropEach, h.each]

theorem supplies (h : s.ReleasedInReverse slots t) (hs : s.base.Supplies supply) :
    t.base.Supplies (slots ++ supply) := by
  have hsupply := supplies_dropEach hs h.each
  rwa [List.reverse_reverse] at hsupply

end ReleasedInReverse

namespace Heads

variable {s t : Store (Shape.Links × α)} {link : Handle} {shape : Shape}

theorem readable (h : s.Heads link shape) : ∀ slot ∈ shape.slots, ∃ node, s.read slot = .ok node := by
  induction h with
  | nil => exact nofun
  | node hread _ _ ihl ihr =>
    intro slot hslot
    simp only [Shape.slots, List.mem_append, List.mem_cons] at hslot
    obtain hslot | rfl | hslot := hslot
    · exact ihl slot hslot
    · exact ⟨_, hread⟩
    · exact ihr slot hslot

/-- Nothing is asked of other slots than those of the subtree. -/
theorem congr (h : s.Heads link shape) (hsame : ∀ slot ∈ shape.slots, t.base.cells[slot]? = s.base.cells[slot]?) :
    t.Heads link shape := by
  induction h with
  | nil => exact .nil
  | node hread _ _ ihl ihr =>
    simp only [Shape.slots, List.mem_append, List.mem_cons] at hsame
    exact .node (read_of_cells_eq (hsame _ (.inr (.inl rfl))) hread) (ihl fun s hs => hsame s (.inl hs))
      (ihr fun s hs => hsame s (.inr (.inr hs)))

/-- The loop ends, and releases the subtree that the links make up, from the
    last node to the first: for each node on the left spine, first all that
    hangs on its right. -/
theorem run_releaseBelow {limit : Nat} (h : s.Heads link shape) (hnodup : shape.slots.Nodup)
    (hlimit : shape.height ≤ limit) : (s.releaseBelow limit link).run = (shape.releaseAll s).map some := by
  induction shape generalizing s link limit with
  | nil =>
    cases h
    cases limit <;> rfl
  | node color left slot right ihl ihr =>
    obtain _ | @⟨_, node, item, _, _, _, hread, hleft, hright⟩ := h
    obtain ⟨hnodupl, hnodup, hapart⟩ := List.nodup_append.mp hnodup
    obtain ⟨hslot, hnodupr⟩ := List.nodup_cons.mp hnodup
    have hslotl : slot ∉ left.slots := fun hmem => hapart slot hmem slot List.mem_cons_self rfl
    rw [Shape.height] at hlimit
    obtain ⟨limit, rfl⟩ := Nat.exists_eq_add_of_le' (Nat.le_trans (Nat.le_add_left 1 _) hlimit)
    obtain ⟨s₁, hs₁⟩ := exists_releasedInReverse hnodupr hright.readable
    have hread₁ := read_of_cells_eq (hs₁.others slot hslot) hread
    obtain ⟨s₂, hs₂⟩ := exists_drop hread₁
    obtain ⟨_, hothers₂⟩ := cells_of_drop hs₂
    have hleft₂ : s₂.Heads node.left left := by
      refine hleft.congr fun other hother => ?_
      have hne : other ≠ slot := fun heq => hslotl (heq ▸ hother)
      have hother₁ : other ∉ right.slots := fun hmem =>
        hapart other hother other (List.mem_cons_of_mem _ hmem) rfl
      rw [hothers₂ other hne, hs₁.others other hother₁]
    have hrunr : s.releaseBelow limit node.right = pure s₁ := by
      have hrun : (s.releaseBelow limit node.right).run = _ := ihr hright hnodupr (by omega)
      rwa [hs₁.releaseAll] at hrun
    have hrunl : (s₂.releaseBelow limit node.left).run = _ := ihl hleft₂ hnodupl (by omega)
    rw [Shape.releaseAll_node, hs₁.releaseAll, ok_bind, hs₂, ok_bind, ← hrunl]
    simp [releaseBelow, follow, hread, hrunr, hread₁, hs₂, Option.elimM]

/-- The links of a shape, written into the slots, lead to it. -/
theorem of_links {parent : Handle} (h : ∀ l ∈ shape.links parent, ∃ item, s.read l.slot = .ok (l, item)) :
    s.Heads (.ofChild shape.slot?) shape := by
  induction shape generalizing parent with
  | nil => exact .nil
  | node color left slot right ihl ihr =>
    simp only [Shape.links, List.mem_append, List.mem_cons] at h
    obtain ⟨item, hread⟩ := h _ (.inr (.inl rfl))
    exact .node hread (ihl fun l hl => h l (.inl hl)) (ihr fun l hl => h l (.inr (.inr hl)))

/-- The items do not matter: released by its shape, a store without the links
    comes to the same. -/
theorem exists_released (h : s.Heads link shape) (hnodup : shape.slots.Nodup) :
    ∃ t, (∀ limit, shape.height ≤ limit → (s.releaseBelow limit link).run = .ok (some t)) ∧
      s.ReleasedInReverse shape.slots t ∧ shape.releaseAll (s.map Prod.snd) = .ok (t.map Prod.snd) := by
  obtain ⟨t, ht⟩ := exists_releasedInReverse hnodup h.readable
  refine ⟨t, ?_, ht, ?_⟩
  · intro limit hlimit
    rw [h.run_releaseBelow hnodup hlimit, ht.releaseAll]
    rfl
  · rw [Shape.releaseAll_eq_dropEach, dropEach_map, ht.each, except_map]

end Heads

end Store

namespace Tree

open RedBlack.Action

variable {α κ ε : Type} {key : α → κ} {t : Tree key} {entries : List (Slot × α)} {o : Outside α} {a : Arena α}

/-- What clearing a tree over an arena comes to, which is `b` then. -/
structure ClearedInto (t : Tree key) (b : Arena α) : Prop where
  answer : ((clear : Op key Unit).run t).answer = .ok ()
  /-- All that is left of the tree is its arena. -/
  state : ((clear : Op key Unit).run t).state = .empty key t.less (.arena b) t.tag
  /-- The loop comes to the same from the root, where the nodes lie in the slots
      with their links. -/
  follows : ∀ s : Store (Shape.Links × α), s.map Prod.snd = t.store →
    (∀ l ∈ t.table, ∃ item, s.read l.slot = .ok (l, item)) →
    ∃ u, (∀ limit, t.shape.height ≤ limit → (s.releaseBelow limit (.ofChild t.shape.slot?)).run = .ok (some u)) ∧
      u.map Prod.snd = .arena b
  released : t.store.ReleasedInReverse t.shape.slots (.arena b)
  size : t.shape.slots.length = t.size
  /-- The slots are the next ones to be handed out, the first one in order
      first. -/
  handsOut : b.HandsOut t.shape.slots

theorem Represents.exists_clearedInto (h : t.Represents entries o) (hstore : t.store = .arena a) :
    ∃ b, t.ClearedInto b := by
  have hbuilt (slot : Slot) (hslot : slot ∈ t.shape.slots) : ∃ item, t.store.read slot = .ok item := by
    obtain ⟨before, item, after, rfl⟩ := h.exists_entry hslot
    exact ⟨item, h.itemAt (e := (slot, item)) (by simp)⟩
  obtain ⟨store, hreleased⟩ := Store.exists_releasedInReverse h.nodup hbuilt
  obtain ⟨b, rfl⟩ : ∃ b, store = .arena b := by
    have heach := hreleased.each
    rw [hstore] at heach
    exact Store.exists_arena_of_dropEach heach
  obtain ⟨_, hanswer, hstate⟩ := (clear_of_dispose hreleased.releaseAll).answer
  obtain ⟨supply, hsupply⟩ := Arena.Sound.exists_supply h.store.sound
  refine ⟨b, hanswer, hstate, ?_, hreleased, ?_, (hreleased.supplies hsupply).handsOut⟩
  · intro s hitems hnodes
    obtain ⟨u, hrun, _, hsame⟩ := (Store.Heads.of_links hnodes).exists_released h.nodup
    rw [hitems, hreleased.releaseAll] at hsame
    exact ⟨u, hrun, (Except.ok.inj hsame).symm⟩
  · rw [h.slots, List.length_map, h.size]

/-- Whatever a subtree looks like whose nodes lie in slots of their own,
    releasing it gives back the slots of its nodes, each of them once and the
    last one in order first, and touches no other slot. The loop that goes by
    the links, started at the top of a finite subtree, ends and comes to the
    same. So an arena whose tree was cleared hands out the slots of that tree
    next, the first one in order first. -/
theorem teardown_releases_in_reverse :
    (∀ (s : Store α) (shape : Shape), shape.slots.Nodup → (∀ slot ∈ shape.slots, ∃ item, s.read slot = .ok item) →
      ∃ t, shape.releaseAll s = .ok t ∧ s.ReleasedInReverse shape.slots t) ∧
    (∀ (s : Store (Shape.Links × α)) (link : Handle) (shape : Shape), s.Heads link shape → shape.slots.Nodup →
      ∃ t, (∀ limit, shape.height ≤ limit → (s.releaseBelow limit link).run = .ok (some t)) ∧
        s.ReleasedInReverse shape.slots t ∧ shape.releaseAll (s.map Prod.snd) = .ok (t.map Prod.snd)) ∧
    ∀ (f : Forest key) (t : Tree key) (a : Arena α),
      (f.Reachable fun f (c : Forest.Command α κ ε) => c.OnLive f) → t ∈ f.trees → t.store = .arena a →
      ∃ b, t.ClearedInto b := by
  refine ⟨?_, ?_, ?_⟩
  · intro s shape hnodup hbuilt
    obtain ⟨t, ht⟩ := Store.exists_releasedInReverse hnodup hbuilt
    exact ⟨t, ht.releaseAll, ht⟩
  · exact fun s link shape h hnodup => h.exists_released hnodup
  · intro f t a hf ht hstore
    obtain ⟨entries, o, h⟩ := hf.represents_onLive ht
    exact h.exists_clearedInto hstore

/-- A red node with a red child on its right that has a red child itself, and a
    black child on its left: its slots are given back in the order 1, 2, 0, 3,
    also by the loop, and the node in slot 4, which does not belong to them, and
    the free slot 5 are left alone. A tree of 1, 2 and 3 in the slots 1, 0 and 2
    is cleared, and slot 1 is handed out next. -/
theorem teardown_releases_in_reverse_lopsided :
    (∃ s t : Store (Shape.Links × Nat),
      (Shape.node .red (.leaf .black 3) 0 (.node .red (.leaf .red 2) 1 .nil)).releaseAll s = .ok t ∧
      (s.releaseBelow 3 (.node 0)).run = .ok (some t) ∧ s.calls = #[] ∧
      t.calls = #[.deallocated 1, .deallocated 2, .deallocated 0, .deallocated 3] ∧ t.read 4 = s.read 4 ∧
      t.base.cells[5]? = some (.free none)) ∧
    ∃ (t : Tree (id : Nat → Nat)) (b : Arena Nat), t.items = .ok [1, 2, 3] ∧ t.shape.slots = [1, 0, 2] ∧
      t.ClearedInto b ∧ ∃ c, Arena.allocate b = .ok (.ok 1, c) := by
  obtain ⟨_, hloop, hclear⟩ := @teardown_releases_in_reverse Nat Nat Empty id
  obtain ⟨hrelease, _, _⟩ := @teardown_releases_in_reverse (Shape.Links × Nat) Nat Empty Prod.snd
  constructor
  · let shape : Shape := .node .red (.leaf .black 3) 0 (.node .red (.leaf .red 2) 1 .nil)
    let s : Store (Shape.Links × Nat) := .recorded (.arena
      { cells := #[.built (⟨0, .red, .header, .node 3, .node 1⟩, 20), .built (⟨1, .red, .node 0, .node 2, .nil⟩, 40),
          .built (⟨2, .red, .node 1, .nil, .nil⟩, 30), .built (⟨3, .black, .node 0, .nil, .nil⟩, 10),
          .built (⟨4, .red, .nil, .nil, .nil⟩, 50), .free none]
        free := some 5 }) #[]
    have hheads : s.Heads (.node 0) shape :=
      .node rfl (.node rfl .nil .nil) (.node rfl (.node rfl .nil .nil) .nil)
    obtain ⟨t, hrun, hreleased⟩ := hrelease s shape (by decide) hheads.readable
    obtain ⟨_, hends, hsame, _⟩ := hloop s (.node 0) shape hheads (by decide)
    obtain rfl := Except.ok.inj (hrun.symm.trans hsame.releaseAll)
    have hother : t.read 4 = .ok (⟨4, .red, .nil, .nil, .nil⟩, 50) :=
      Store.read_of_cells_eq (hreleased.others 4 (by decide)) rfl
    exact ⟨s, t, hrun, hends 3 (by decide), rfl, hreleased.recorded _ _ rfl, hother, hreleased.others 5 (by decide)⟩
  · have h₀ : Forest.Reachable (fun f (c : Forest.Command Nat Nat Empty) => c.OnLive f) (.empty (id : Nat → Nat)) :=
      .empty
    have h₁ := h₀.step (c := .plant (fun a b => decide (a < b)) (.arena .empty)) Arena.sound_empty
    have h₂ := h₁.step (c := .onTree 0 (.insertEqual 2)) ⟨_, rfl, nofun⟩
    have h₃ := h₂.step (c := .onTree 0 (.insertEqual 1)) ⟨_, rfl, nofun⟩
    have h₄ := h₃.step (c := .onTree 0 (.insertEqual 3)) ⟨_, rfl, nofun⟩
    obtain ⟨b, hcleared⟩ := hclear _ _ _ h₄ (Array.mem_of_getElem? (i := 0) rfl) rfl
    exact ⟨_, b, rfl, by decide, hcleared, hcleared.handsOut [] b .here nofun 1 rfl⟩

end Tree

end RedBlack
