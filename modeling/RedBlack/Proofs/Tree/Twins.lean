import RedBlack.Proofs.Forest
import RedBlack.Proofs.Tree.Equality
import RedBlack.Proofs.Tree.Lockstep

namespace RedBlack

namespace Shape

@[simp] theorem outline_rename (f : Slot → Slot) (t : Shape) : (t.rename f).outline = t.outline := by
  induction t with
  | nil => rfl
  | node color left slot right ihl ihr => simp [outline, ihl, ihr]

@[simp] theorem length_slots_outline (t : Shape) : t.outline.slots.length = t.slots.length := by
  induction t with
  | nil => rfl
  | node color left slot right ihl ihr => simp [outline, slots, ihl, ihr]

theorem eq_of_outline_of_slots {t u : Shape} (houtline : t.outline = u.outline) (hslots : t.slots = u.slots) :
    t = u := by
  induction t generalizing u with
  | nil =>
    cases u with
    | nil => rfl
    | node => cases houtline
  | node color left slot right ihl ihr =>
    cases u with
    | nil => cases houtline
    | node color' left' slot' right' =>
      simp only [outline, node.injEq, true_and] at houtline
      obtain ⟨rfl, hl, hr⟩ := houtline
      have hlength : left.slots.length = left'.slots.length := by
        rw [← length_slots_outline left, hl, length_slots_outline]
      obtain ⟨hleft, hrest⟩ := List.append_inj hslots hlength
      obtain ⟨rfl, hright⟩ := List.cons.inj hrest
      rw [ihl hl hleft, ihr hr hright]

end Shape

/-- Some renaming takes the slots of one list to those of another, one by one.
    The slots behind are none of the two exchanged first, since no list has a
    slot twice. -/
theorem exists_renaming {slots slots' : List Slot} (hnodup : slots.Nodup) (hnodup' : slots'.Nodup)
    (hlength : slots'.length = slots.length) : ∃ σ : Equiv.Perm Slot, slots' = slots.map σ := by
  induction slots generalizing slots' with
  | nil => exact ⟨.refl Slot, List.length_eq_zero_iff.mp hlength⟩
  | cons a rest ih =>
    obtain ⟨b, rest', rfl⟩ := List.exists_cons_of_length_eq_add_one hlength
    obtain ⟨ha, hrest⟩ := List.nodup_cons.mp hnodup
    obtain ⟨hb, hrest'⟩ := List.nodup_cons.mp hnodup'
    obtain ⟨σ, rfl⟩ := ih hrest hrest' (by simpa using hlength)
    refine ⟨redirect σ a b, ?_⟩
    rw [List.map_cons, redirect_self]
    congr 1
    refine List.map_congr_left fun slot hslot => (redirect_of_ne ?_ ?_).symm
    · rintro rfl
      exact ha hslot
    · rintro rfl
      exact hb (List.mem_map_of_mem hslot)

namespace Tree

variable {α κ ε ε' : Type} {key : α → κ} {t u copy : Tree key} {entries new : List (Slot × α)} {o o' : Outside α}

/-- Nothing is asked of the stores but that each of them holds its tree. -/
abbrev AnyStores (_ : Equiv.Perm Slot) (_ _ : Store α) : Prop :=
  True

theorem linked_anyStores : Store.Linked (AnyStores (α := α)) :=
  ⟨fun _ _ _ => trivial, fun _ _ _ => trivial, fun _ _ _ => trivial, fun _ _ _ => trivial⟩

/-- Two trees with the same outline and the same items differ in their slots
    only. -/
theorem Represents.exists_coupled (h : t.Represents entries o) (hu : u.Represents new o') (hless : u.less = t.less)
    (houtline : u.shape.outline = t.shape.outline) (hitems : new.map Prod.snd = entries.map Prod.snd) :
    ∃ σ, t.Coupled AnyStores σ u entries o o' := by
  have hlength : u.shape.slots.length = t.shape.slots.length := by
    rw [← Shape.length_slots_outline, houtline, Shape.length_slots_outline]
  obtain ⟨σ, hσ⟩ := exists_renaming h.nodup hu.nodup hlength
  have hnew : new = entries.map (Prod.map σ id) := by
    rw [hu.slots, h.slots] at hσ
    rw [List.zip_of_prod hσ hitems]
    exact (List.zip_of_prod (by simp) (by simp)).symm
  subst hnew
  exact ⟨σ, h, hu, Shape.eq_of_outline_of_slots (by simpa using houtline) (by simpa using hσ), hless, trivial⟩

/-- Two trees that cannot be told apart but by the names of their slots. -/
structure Mirrors (t u : Tree key) : Prop where
  outline : u.shape.outline = t.shape.outline
  less : u.less = t.less
  size : u.size = t.size
  items : u.items = t.items
  /-- They compare as equal as the items are to themselves. -/
  same : ∀ (same : α → α → Bool) (items : List α), t.items = .ok items →
    t.sameItemsBy same u = .ok (items.all fun item => same item item)
  equal : ∀ [DecidableEq α], t.sameItems u = .ok true
  /-- The ends, the links and the items of the nodes are the same up to a
      renaming of the slots. -/
  renamed : ∃ σ : Equiv.Perm Slot, u.shape = t.shape.rename σ ∧ u.leftmost = t.leftmost.map σ ∧
    u.rightmost = t.rightmost.map σ ∧ ∀ slot ∈ t.shape.slots, u.itemAt (σ slot) = t.itemAt slot

theorem Coupled.mirrors {K : Equiv.Perm Slot → Store α → Store α → Prop} {σ : Equiv.Perm Slot}
    (h : t.Coupled K σ u entries o o') : t.Mirrors u where
  outline := by rw [h.shape, Shape.outline_rename]
  less := h.less
  size := h.size
  items := h.items
  same same items hitems := by
    obtain rfl := Except.ok.inj (h.left.items.symm.trans hitems)
    exact (h.left.alike h.right (by simp [List.map_map])).same same
  equal := (h.left.alike h.right (by simp [List.map_map])).equal
  renamed := by
    refine ⟨σ, h.shape, h.leftmost.1, h.rightmost.1, fun slot hslot => ?_⟩
    obtain ⟨item, ht, hu⟩ := h.itemAt hslot
    rw [ht, hu]

/-- The pairs of trees that the same requests lead to from two trees, position
    by position in order. A request that may ask for a slot comes while both
    stores have room. -/
inductive SideBySide (ε : Type) (t u : Tree key) : Tree key → Tree key → Prop where
  | start : SideBySide ε t u t u
  | step {t₁ u₁ : Tree key} {r : Request α κ ε} : SideBySide ε t u t₁ u₁ → r.OnLive t₁ →
    (r.Inserts → t₁.store.HasRoom ∧ u₁.store.HasRoom) →
    SideBySide ε t u (r.run.run t₁).state ((r.move (t₁.counterpart u₁)).run.run u₁).state

theorem SideBySide.follows {K : Equiv.Perm Slot → Store α → Store α → Prop} {σ : Equiv.Perm Slot} {t₁ u₁ : Tree key}
    (hK : Store.Linked K) (h : t.Coupled K σ u entries o o') (hrun : SideBySide ε t u t₁ u₁) :
    Follows K o o' t u t₁ u₁ := by
  induction hrun with
  | start => exact h.follows
  | step _ hlive hroom ih =>
    obtain ⟨_, _, σ₁, entries₁, h₁⟩ := id ih
    have hboth (hinserts) := iff_of_true (hroom hinserts).1 (hroom hinserts).2
    exact ih.trans (h₁.request hK _ hlive hboth).2

/-- A copy that came about differs from its source in its slots only, however
    the slots of the source came to be scattered. -/
theorem Represents.copyInto (h : t.Represents entries o) {store : Store α} (hstore : store.Sound) (tag : UInt64) :
    ∃ replica, t.copyInto store tag = .ok replica ∧ ∀ copy, replica.result = .ok copy →
      ∃ σ, t.Coupled AnyStores σ copy entries o ⟨store.use, store.surplus, store.limits⟩ := by
  obtain ⟨replica, hrun, ⟨copy, new, hresult, hcopy, hless, _, houtline, hcopied⟩ | ⟨failure, rest, hresult, _⟩⟩ :=
    h.copyWith (ε := Empty) (fun _ item => .ok item) tag hstore.holds_nil
  · refine ⟨replica, hrun, fun other hother => ?_⟩
    rw [hresult, Except.ok.injEq] at hother
    subst hother
    exact h.exists_coupled hcopy hless houtline hcopied.items_eq
  · refine ⟨replica, hrun, fun other hother => ?_⟩
    rw [hresult] at hother
    cases hother

theorem clone_eq_ok {store : Store α} {tag : UInt64} :
    t.clone store tag = .ok copy ↔ ∃ replica, t.copyInto store tag = .ok replica ∧ replica.result = .ok copy := by
  rw [Tree.clone, bind_eq_ok]
  refine exists_congr fun replica => and_congr_right fun _ => ?_
  cases replica.result with
  | ok other => simp
  | error failure => simp

/-- A copy of a tree of any run is its mirror image, and the two stay so:
    whatever is asked of both, position by position in order, they answer alike,
    for as long as no store that is asked for a slot has run out. In an arena of
    its own the copy always comes about. -/
theorem copies_stay_alike {f : Forest key} {t : Tree key}
    (hf : f.Reachable fun f (c : Forest.Command α κ ε') => c.Legal f) (ht : t ∈ f.trees) :
    (∀ tag, ∃ copy, t.clone (.arena .empty) tag = .ok copy) ∧
    ∀ (store : Store α) (tag : UInt64), store.Sound → ∃ replica, t.copyInto store tag = .ok replica ∧
      ∀ copy, replica.result = .ok copy → t.clone store tag = .ok copy ∧ t.Mirrors copy ∧
        ∀ t₁ u₁, SideBySide ε t copy t₁ u₁ → t₁.Mirrors u₁ ∧
          ∀ r : Request α κ ε, r.OnLive t₁ → (r.Inserts → t₁.store.HasRoom ∧ u₁.store.HasRoom) →
            AnswerAlike t₁ u₁ r := by
  obtain ⟨entries, o, h⟩ := hf.represents ht
  constructor
  · intro tag
    obtain ⟨copy, _, hclone, _⟩ := h.clone tag
    exact ⟨copy, hclone⟩
  · intro store tag hstore
    obtain ⟨replica, hrun, hcopy⟩ := h.copyInto hstore tag
    refine ⟨replica, hrun, fun copy hresult => ?_⟩
    obtain ⟨σ, hcoupled⟩ := hcopy copy hresult
    refine ⟨clone_eq_ok.mpr ⟨replica, hrun, hresult⟩, hcoupled.mirrors, fun t₁ u₁ hpair => ?_⟩
    obtain ⟨_, _, σ₁, entries₁, h₁⟩ := hpair.follows linked_anyStores hcoupled
    refine ⟨h₁.mirrors, fun r hlive hroom => ?_⟩
    have hboth (hinserts) := iff_of_true (hroom hinserts).1 (hroom hinserts).2
    exact (h₁.request linked_anyStores r hlive hboth).1

/-- A tree that an erasure left with a gap between its slots is copied. An item
    is put into both trees, right before their last ones; it gets the released
    slot of the source and a new one of the copy. Then the first item of both
    comes out. -/
theorem copies_stay_alike_scattered :
    ∃ t copy t₁ u₁ : Tree (id : Nat → Nat), t.clone (.arena .empty) 7 = .ok copy ∧ t.shape.slots = [0, 2] ∧
      copy.shape.slots = [1, 0] ∧ t.Mirrors copy ∧ SideBySide Unit t copy t₁ u₁ ∧ t₁.shape.slots = [0, 1, 2] ∧
      u₁.shape.slots = [1, 2, 0] ∧ t₁.Mirrors u₁ ∧
      AnswerAlike t₁ u₁ (.command .popFirst : Request Nat Nat Unit) := by
  let r : Request Nat Nat Unit := .command (.insertUniqueHint ⟨some 2, 1⟩ 2)
  have h₀ : Forest.Reachable (fun f (c : Forest.Command Nat Nat Empty) => c.Legal f) (.empty (id : Nat → Nat)) :=
    .empty
  have h₁ := h₀.step (c := .plant (fun a b => decide (a < b)) (.arena .empty)) Arena.sound_empty
  have h₂ := h₁.step (c := .onTree 0 (.insertUnique 1)) ⟨_, rfl, trivial⟩
  have h₃ := h₂.step (c := .onTree 0 (.insertUnique 2)) ⟨_, rfl, trivial⟩
  have h₄ := h₃.step (c := .onTree 0 (.insertUnique 3)) ⟨_, rfl, trivial⟩
  have h₅ := h₄.step (c := .onTree 0 (.eraseKey 2)) ⟨_, rfl, trivial⟩
  obtain ⟨f, t, hf, ht, htag, hslots, hlimits, hcells, hslots₁, hcopies⟩ : ∃ (f : Forest (id : Nat → Nat))
      (t : Tree (id : Nat → Nat)), f.Reachable (fun f (c : Forest.Command Nat Nat Empty) => c.Legal f) ∧
      t ∈ f.trees ∧ t.tag = 1 ∧ t.shape.slots = [0, 2] ∧ t.store.limits = false ∧ t.store.base.cells.size = 3 ∧
      (r.run.run t).state.shape.slots = [0, 1, 2] ∧
      (t.clone (.arena .empty) 7).map (fun copy => (copy.shape.slots, copy.store.limits, copy.store.base.cells.size,
        ((r.move (t.counterpart copy)).run.run copy).state.shape.slots)) = .ok ([1, 0], false, 2, [1, 2, 0]) :=
    ⟨_, _, h₅, Array.mem_of_getElem? (i := 0) rfl, by decide +kernel, by decide +kernel, by decide +kernel,
      by decide +kernel, by decide +kernel, by decide +kernel⟩
  obtain ⟨hcomes, hstays⟩ := copies_stay_alike (ε := Unit) hf ht
  obtain ⟨copy, hclone⟩ := hcomes 7
  obtain ⟨replica, hrun, hcopy⟩ := hstays (.arena .empty) 7 Arena.sound_empty
  obtain ⟨_, hrun', hresult⟩ := clone_eq_ok.mp hclone
  obtain rfl := Except.ok.inj (hrun.symm.trans hrun')
  obtain ⟨_, hmirrors, hpairs⟩ := hcopy copy hresult
  rw [hclone, except_map, Except.ok.injEq] at hcopies
  simp only [Prod.mk.injEq] at hcopies
  obtain ⟨hslots', hlimits', hcells', hslots₁'⟩ := hcopies
  have hroom : t.store.HasRoom := (Store.hasRoom_iff hlimits).mpr (.inr (by rw [hcells]; decide))
  have hroom' : copy.store.HasRoom := (Store.hasRoom_iff hlimits').mpr (.inr (by rw [hcells']; decide))
  have hlive : r.OnLive t := by
    intro p hp
    obtain rfl := List.mem_singleton.mp hp
    refine ⟨htag.symm, ?_⟩
    rintro _ ⟨rfl⟩
    simp [hslots]
  have hpair : SideBySide Unit t copy _ _ := SideBySide.start.step hlive fun _ => ⟨hroom, hroom'⟩
  obtain ⟨hmirrors₁, halike⟩ := hpairs _ _ hpair
  exact ⟨t, copy, _, _, hclone, hslots, hslots', hmirrors, hpair, hslots₁, hslots₁', hmirrors₁,
    halike (.command .popFirst) nofun nofun⟩

end Tree

end RedBlack
