import RedBlack.Proofs.Tree.Runs
import RedBlack.Proofs.Tree.Safety

namespace RedBlack

/-- Beside the entries of a tree nothing is in use, and no slot handed out is
    missing. -/
structure Outside.IsIdle {α : Type} (o : Outside α) : Prop where
  unused : ∀ slot, o.use slot = none
  balanced : ∀ n ∈ o.surplus, n = 0

namespace Store

variable {α : Type} {s : Store α} {entries : List (Slot × α)} {o : Outside α} {slot : Slot}

/-- Nothing in a store is in use, and its counting layers saw as many slots
    released as handed out. -/
structure Idle (s : Store α) : Prop where
  sound : s.Sound
  unused : ∀ slot, s.use slot = none
  balanced : ∀ n ∈ s.surplus, n = 0

theorem idle_empty : (arena .empty : Store α).Idle where
  sound := Arena.sound_empty
  unused := Arena.use_empty
  balanced := by simp [surplus]

theorem Idle.counting (h : s.Idle) (n : Nat) : (counting s n n).Idle where
  sound := h.sound
  unused := h.unused
  balanced := by simpa [surplus] using h.balanced

theorem Idle.limited (h : s.Idle) (remaining : Nat) : (limited s remaining).Idle where
  sound := h.sound
  unused := h.unused
  balanced := h.balanced

theorem Idle.exists_holds (h : s.Idle) : ∃ o, o.IsIdle ∧ s.Holds [] o :=
  ⟨_, ⟨h.unused, h.balanced⟩, h.sound.holds_nil⟩

namespace Holds

theorem idle (h : s.Holds [] o) (ho : o.IsIdle) : s.Idle where
  sound := h.sound
  unused slot := by rw [h.others slot (by simp), ho.unused]
  balanced := by simpa [h.surplus] using ho.balanced

theorem use_eq_none (h : s.Holds entries o) (ho : o.IsIdle) (hslot : slot ∉ entries.map Prod.fst) :
    s.use slot = none := by
  rw [h.others slot hslot, ho.unused]

theorem built_iff (h : s.Holds entries o) (ho : o.IsIdle) :
    (∃ item, s.base.cells[slot]? = some (.built item)) ↔ slot ∈ entries.map Prod.fst := by
  constructor
  · rintro ⟨item, hcell⟩
    by_contra hslot
    have huse : s.use slot = some (some item) := Arena.use_of_cell hcell
    rw [h.use_eq_none ho hslot] at huse
    cases huse
  · intro hslot
    obtain ⟨e, he, rfl⟩ := List.mem_map.mp hslot
    obtain ⟨c, hcell, hc⟩ := Arena.exists_cell_of_use (h.built e he)
    cases c with
    | built item => exact ⟨item, hcell⟩
    | reserved => cases hc
    | free next => cases hc

theorem not_reserved (h : s.Holds entries o) (ho : o.IsIdle) : s.base.cells[slot]? ≠ some .reserved := by
  intro hcell
  have huse : s.use slot = some none := Arena.use_of_cell hcell
  by_cases hslot : slot ∈ entries.map Prod.fst
  · obtain ⟨e, he, rfl⟩ := List.mem_map.mp hslot
    rw [h.built e he] at huse
    cases huse
  · rw [h.use_eq_none ho hslot] at huse
    cases huse

/-- Every counting layer is ahead of its releases by the number of entries. -/
theorem surplus_eq (h : s.Holds entries o) (ho : o.IsIdle) {n : Int} (hn : n ∈ s.surplus) : n = entries.length := by
  rw [h.surplus] at hn
  obtain ⟨m, hm, rfl⟩ := List.mem_map.mp hn
  rw [ho.balanced m hm]
  omega

end Holds

end Store

namespace Tree

variable {α κ ε : Type} {key : α → κ} {t : Tree key} {entries : List (Slot × α)} {o : Outside α}

/-- The store of a tree is used for its nodes and for nothing else: the slots in
    use are the nodes of the tree, whatever became of the requests so far. -/
structure OwnsStore (t : Tree key) : Prop where
  /-- The nodes are where items were put. -/
  built : ∀ slot : Slot, (∃ item, t.store.base.cells[slot]? = some (.built item)) ↔ slot ∈ t.shape.slots
  reserved : ∀ slot : Slot, t.store.base.cells[slot]? ≠ some .reserved
  /-- No two nodes share a slot, and the size is their number. -/
  distinct : t.shape.slots.Nodup
  size : t.size = t.shape.slots.length
  /-- Every counting layer saw as many more slots handed out than released. -/
  counted : ∀ n ∈ t.store.surplus, n = t.size
  live : ∀ count, t.store.live? = some count → count = .ok t.size

theorem Represents.ownsStore (h : t.Represents entries o) (ho : o.IsIdle) : t.OwnsStore := by
  have hcounted (n) (hn : n ∈ t.store.surplus) : n = t.size := by
    rw [h.size, h.store.surplus_eq ho hn]
  constructor
  · intro slot
    rw [h.slots, h.store.built_iff ho]
  · exact fun slot => h.store.not_reserved ho
  · exact h.nodup
  · rw [h.slots, List.length_map, h.size]
  · exact hcounted
  · intro count hcount
    cases hstore : t.store with
    | counting below allocations deallocations =>
      rw [hstore] at hcount hcounted
      have hahead : (allocations - deallocations : Int) = t.size := hcounted _ List.mem_cons_self
      obtain rfl := Option.some.inj hcount
      have hle : deallocations ≤ allocations := by omega
      have hsub : allocations - deallocations = t.size := by omega
      rw [checkedSub, if_pos hle, hsub]
    | arena base => rw [hstore] at hcount; cases hcount
    | limited below remaining => rw [hstore] at hcount; cases hcount
    | recorded below calls => rw [hstore] at hcount; cases hcount

/-- A tree that starts out on an idle store owns it at every step of every run,
    requests that fail or find nothing to do included. No slot is released
    twice, for every request is answered. When the tree is released, or what a
    drain has left of it, the store is idle again. -/
theorem reachable_ownsStore {less : κ → κ → Bool} (hless : StrictWeak less) {store : Store α}
    (hstore : store.Idle) (tag : UInt64)
    (ht : Reachable (fun t (c : Command α κ ε) => c.Legal t) (.empty key less store tag) t) :
    t.OwnsStore ∧ (∀ c : Command α κ ε, c.Legal t → ∃ reply, (c.run.run t).answer = .ok reply) ∧
      (∃ left, t.dispose = .ok left ∧ left.Idle) ∧
      ∀ script, ∃ items left, ((Drain.follow script).run t.drain).answer = .ok items ∧
        ((Drain.follow script).run t.drain).state.tree.dispose = .ok left ∧ left.Idle := by
  obtain ⟨o, ho, hholds⟩ := hstore.exists_holds
  have hempty : (Tree.empty key less store tag).Represents [] o := represents_empty hholds
  obtain ⟨_, entries, hrep, _⟩ := ht.represents (fun _ _ hlegal => hlegal) hempty
  refine ⟨hrep.ownsStore ho, ?_, ?_, ?_⟩
  · intro c hc
    exact ht.answers (fun _ _ hlegal => hlegal) hempty hc fun _ => hless
  · obtain ⟨left, hdispose, hleft⟩ := hrep.dispose
    exact ⟨left, hdispose, hleft.idle ho⟩
  · intro script
    obtain ⟨items, left, hanswer, hdispose, hleft⟩ := hrep.drain script
    exact ⟨items, left, hanswer, hdispose, hleft.idle ho⟩

/-- One item is put in, two more attempts fail for want of another key and for
    want of an item, and a third one finds the budget used up. After it was
    raised, one item goes in and the first one comes out. -/
theorem reachable_ownsStore_failures :
    ∃ t : Tree (id : Nat → Nat), t.size = 1 ∧ t.store.surplus = [1] ∧ t.OwnsStore ∧
      ∃ left, t.dispose = .ok left ∧ left.Idle := by
  let store : Store Nat := .limited (.counting (.arena .empty) 0 0) 3
  have hstore : store.Idle := (Store.idle_empty.counting 0).limited 3
  let origin : Tree (id : Nat → Nat) := .empty id (fun a b => decide (a < b)) store 0
  have h₀ : Reachable (fun t (c : Command Nat Nat Unit) => c.Legal t) origin origin := .start
  have h₁ := h₀.step (c := .insertUnique 5) trivial
  have h₂ := h₁.step (c := .insertUniqueWith fun _ => .ok 5) trivial
  have h₃ := h₂.step (c := .insertEqualWith fun _ => .error ()) trivial
  have h₄ := h₃.step (c := .insertEqual 7) trivial
  have h₅ := (h₄.setBudget 1).step (c := .insertEqual 7) trivial
  have h₆ := h₅.step (c := .eraseKey 5) trivial
  obtain ⟨howns, _, hdispose, _⟩ := reachable_ownsStore StrictWeak.decide_lt hstore 0 h₆
  refine ⟨_, ?_, ?_, howns, hdispose⟩
  · decide +kernel
  · decide +kernel

end Tree

end RedBlack
