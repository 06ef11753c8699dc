import RedBlack.Proofs.StableOrder
import RedBlack.Proofs.Tree.Granted
import RedBlack.Proofs.Tree.Queued

namespace RedBlack

variable {α κ ε β : Type}

/-- The items that were answered for without an error. -/
def inserted (items : List α) (answers : List (Except ε β)) : List α :=
  ((items.zip answers).filter fun step => step.2.isOk).map Prod.fst

section Granting

variable (item : α) (items : List α) (answers : List (Except ε β))

theorem inserted_ok (b : β) : inserted (item :: items) (.ok b :: answers) = item :: inserted items answers :=
  rfl

theorem inserted_error (e : ε) : inserted (item :: items) (.error e :: answers) = inserted items answers :=
  rfl

end Granting

/-- With an answer for each item and no error among them, all items were
    inserted. -/
theorem inserted_of_all {items : List α} {answers : List (Except ε β)} (hlength : answers.length = items.length)
    (hall : ∀ a ∈ answers, a.isOk = true) : inserted items answers = items := by
  have hsteps : ∀ step ∈ items.zip answers, step.2.isOk = true := by
    intro step hstep
    exact hall step.2 (List.of_mem_zip hstep).2
  rw [inserted, List.filter_eq_self.mpr hsteps, List.map_fst_zip (Nat.le_of_eq hlength.symm)]

namespace Tree

open RedBlack.Action

variable {key : α → κ} {t u : Tree key} {entries : List (Slot × α)} {o : Outside α} {slot : Slot} {item : α}
  {xs : List α} {store : Store α}

/-- With a slot at hand, an item that goes among equivalent ones comes right
    behind those that are not greater, so items that are inserted one after the
    other stand in the tree as a stable sort leaves them. -/
theorem Represents.insertEqual_granted (h : t.Represents entries o) (hless : StrictWeak t.less)
    (hsorted : Sorted t.less key entries) (halloc : t.store.allocate = .ok (.ok slot, store)) :
    ∃ front back : List (Slot × α), entries = front ++ back ∧
      (∀ e ∈ front, t.less (key item) (key e.2) = false) ∧ (∀ e ∈ back, t.less (key item) (key e.2) = true) ∧
      t.PutsAt (Tree.insertEqual item) .ok (front ++ back) front.length (slot, item) := by
  obtain ⟨_, hplace, p, front, back, rfl, hgap, rfl, hlast, hhead⟩ := h.equalPlace_bound .upper (key item)
  have hpoints : Points (Bound.upper.side t.less (key item)) key front back := ⟨hlast, hhead⟩
  obtain ⟨hright, hleft⟩ := hpoints.all hless hsorted
  have hfront : ∀ e ∈ front, t.less (key item) (key e.2) = false := by
    intro e he
    simpa [Bound.side] using hright e he
  have hback : ∀ e ∈ back, t.less (key item) (key e.2) = true := by
    intro e he
    simpa [Bound.side] using hleft e he
  refine ⟨front, back, rfl, hfront, hback, putsAt_of_yields (o := o) ?_ ?_⟩
  · rw [Tree.insertEqual, Tree.insertEqualBy, Yields, wp_bind, wp_ask_ok (s := t) hplace]
    exact h.insertAt_granted halloc hgap item
  · refine hsorted.insert hless ?_ ?_
    · intro a ha
      exact hfront a (List.mem_of_mem_getLast? ha)
    · intro b hb
      exact hless.asymm (hback b (List.mem_of_mem_head? hb))

/-- The tree lists the items as they stand sorted stably. -/
def Arranges (t : Tree key) (xs : List α) (o : Outside α) : Prop :=
  ∃ entries, t.Represents entries o ∧ (Queues.ofList t.less key xs).Lists t.less key (entries.map Prod.snd)

/-- Inserts items one after the other among equivalent ones; says of each what
    came of it. -/
def insertEach : List α → Op key (List (Except AllocError Position))
  | [] => return []
  | item :: rest => return (← insertEqual item) :: (← insertEach rest)

theorem Represents.arranges (h : t.Represents entries o) (hsorted : Sorted t.less key entries) :
    t.Arranges (entries.map Prod.snd) o :=
  ⟨entries, h, Queues.lists_ofList_self (List.pairwise_map.mpr hsorted)⟩

namespace Arranges

theorem items (h : t.Arranges xs o) (hless : StrictWeak t.less) : t.items = .ok (stableSort t.less key xs) := by
  obtain ⟨entries, hrep, hlists⟩ := h
  rw [hrep.items, (Queues.lists_ofList_iff hless).mp hlists]

theorem size (h : t.Arranges xs o) (hless : StrictWeak t.less) : t.size = xs.length := by
  obtain ⟨entries, hrep, hlists⟩ := h
  rw [hrep.size, ← List.length_map, (Queues.lists_ofList_iff hless).mp hlists, length_stableSort]

theorem length_le (h : t.Arranges xs .idle) (hless : StrictWeak t.less) : xs.length ≤ Handle.maxSlots := by
  obtain ⟨entries, hrep, _⟩ := id h
  rw [← h.size hless, hrep.size]
  exact hrep.store.length_le

/-- An item that gets a slot comes last of those inserted; without a slot
    nothing changes. -/
theorem insertEqual (h : t.Arranges xs o) (hless : StrictWeak t.less) (item : α) :
    (Tree.insertEqual item).Yields t fun answer u => u.Continues t ∧
      ((∃ p, answer = .ok p) ∧ u.Arranges (xs ++ [item]) o ∨
        answer = .error .noSlot ∧ ¬ u.store.HasRoom ∧ u.Arranges xs o) := by
  obtain ⟨entries, hrep, hlists⟩ := h
  refine (hrep.insertEqual_joins hless hlists item).mono ?_
  rintro _ u ⟨hu, ⟨hp, rest, hdone, hjoined⟩ | ⟨rfl, hroom, hdone⟩⟩
  · refine ⟨hu, .inl ⟨hp, rest, hdone, ?_⟩⟩
    rw [hu.less, ← Queues.join_ofList]
    exact hjoined
  · refine ⟨hu, .inr ⟨rfl, hroom, entries, hdone, ?_⟩⟩
    rw [hu.less]
    exact hlists

/-- Whatever became of the items, those that got slots are arranged with what
    was there. In an arena that nothing else uses, all of them do until no slot
    is left. -/
theorem insertEach (h : t.Arranges xs o) (hless : StrictWeak t.less) (items : List α) :
    (Tree.insertEach items).Yields t fun answers u => answers.length = items.length ∧
      (u.Continues t ∧ u.Arranges (xs ++ inserted items answers) o) ∧
      (o = .idle → xs.length + items.length ≤ Handle.maxSlots → ∀ a ∈ answers, a.isOk = true) := by
  induction items generalizing t xs with
  | nil =>
    refine ⟨rfl, ⟨.refl t, ?_⟩, fun _ _ => nofun⟩
    rw [inserted, List.zip_nil_left, List.filter_nil, List.map_nil, List.append_nil]
    exact h
  | cons item rest ih =>
    rw [Tree.insertEach, Yields, wp_bind]
    refine (h.insertEqual hless item).mono ?_
    rintro _ t₁ ⟨ht₁, ⟨⟨p, rfl⟩, h₁⟩ | ⟨rfl, hroom, h₁⟩⟩
    · rw [wp_bind]
      refine (ih h₁ (ht₁.less ▸ hless)).mono ?_
      rintro answers u ⟨hlength, ⟨hu, hdone⟩, hall⟩
      rw [wp_pure, inserted_ok, List.length_cons, List.length_cons, hlength]
      rw [List.append_assoc] at hdone
      refine ⟨rfl, ⟨hu.trans ht₁, hdone⟩, ?_⟩
      intro hidle hfits
      rw [List.length_append, List.length_singleton, Nat.add_assoc, Nat.add_comm 1] at hall
      exact List.forall_mem_cons.mpr ⟨rfl, hall hidle hfits⟩
    · rw [wp_bind]
      refine (ih h₁ (ht₁.less ▸ hless)).mono ?_
      rintro answers u ⟨hlength, ⟨hu, hdone⟩, _⟩
      rw [wp_pure, inserted_error, List.length_cons, List.length_cons, hlength]
      refine ⟨rfl, ⟨hu.trans ht₁, hdone⟩, ?_⟩
      rintro rfl hfits
      have hsize := h₁.size (ht₁.less ▸ hless)
      obtain ⟨entries, hrep, _⟩ := h₁
      rw [hrep.size_of_full hroom] at hsize
      omega

end Arranges

/-- What inserting items one after the other comes to: the tree lists the ones
    it had followed by those that got slots, all sorted stably. -/
structure InsertsStably (t : Tree key) (olds xs : List α) (answers : List (Except AllocError Position)) : Prop where
  answer : ((Tree.insertEach xs).run t).answer = .ok answers
  length : answers.length = xs.length
  items : ((Tree.insertEach xs).run t).state.items = .ok (stableSort t.less key (olds ++ inserted xs answers))
  all : (∀ a ∈ answers, a.isOk = true) →
    ((Tree.insertEach xs).run t).state.items = .ok (stableSort t.less key (olds ++ xs))

theorem Arranges.insertsStably {olds : List α} (h : t.Arranges olds o) (hless : StrictWeak t.less) (xs : List α) :
    ∃ answers, t.InsertsStably olds xs answers ∧
      (o = .idle → olds.length + xs.length ≤ Handle.maxSlots → ∀ a ∈ answers, a.isOk = true) := by
  obtain ⟨answers, hanswer, hlength, ⟨hu, hdone⟩, hall⟩ := (h.insertEach hless xs).answer
  have hitems := hdone.items (hu.less ▸ hless)
  rw [hu.less] at hitems
  refine ⟨answers, ⟨hanswer, hlength, hitems, ?_⟩, hall⟩
  intro hok
  rwa [inserted_of_all hlength hok] at hitems

end Tree

end RedBlack
