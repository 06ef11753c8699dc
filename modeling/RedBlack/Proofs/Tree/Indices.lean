import RedBlack.Proofs.Tree.Ranges

namespace RedBlack

theorem insertIdx_length {β : Type} (before after : List β) (x : β) :
    (before ++ after).insertIdx before.length x = before ++ x :: after := by
  induction before with
  | nil => rfl
  | cons y rest ih => rw [List.cons_append, List.length_cons, List.insertIdx_succ_cons, ih, List.cons_append]

theorem eraseIdx_length {β : Type} (before after : List β) (x : β) :
    (before ++ x :: after).eraseIdx before.length = before ++ after := by
  rw [List.eraseIdx_append_of_length_le (Nat.le_refl _), Nat.sub_self, List.eraseIdx_cons_zero]

theorem exists_segment {β : Type} {items : List β} {i j : Nat} (hij : i ≤ j) (hj : j ≤ items.length) :
    ∃ before between after : List β, items = before ++ between ++ after ∧ before.length = i ∧
      (before ++ between).length = j := by
  refine ⟨items.take i, (items.take j).drop i, items.drop j, ?_, ?_, ?_⟩
  · have htake : (items.take j).take i = items.take i := by rw [List.take_take, Nat.min_eq_left hij]
    rw [← htake, List.take_append_drop, List.take_append_drop]
  · rw [List.length_take]
    omega
  · rw [List.length_append, List.length_take, List.length_drop, List.length_take]
    omega

namespace Tree

variable {α κ : Type} {key : α → κ} {t : Tree key} {entries before after : List (Slot × α)} {o : Outside α}
  {p : Position} {i j : Nat}

/-- The slots in order, each with the item in it. A position is the index of its
    entry in this list, and the end is the index behind the last one. -/
def listing (t : Tree key) : Except Fault (List (Slot × α)) :=
  t.shape.slots.mapM fun slot => do return (slot, ← t.itemAt slot)

/-- The position of the item with a given index in the order; behind the last
    item that is the end. -/
def nth (t : Tree key) (i : Nat) : Position :=
  t.position t.shape.slots[i]?

namespace Represents

theorem listing (h : t.Represents entries o) : t.listing = .ok entries := by
  have hread : t.listing = .ok (entries.map id) := by
    apply h.mapM_slots
    intro e he
    rw [h.itemAt he]
    rfl
  rwa [List.map_id] at hread

theorem nth_eq (h : t.Represents entries o) (i : Nat) : t.nth i = t.position (entries[i]?.map Prod.fst) := by
  rw [nth, h.slots, List.getElem?_map]

theorem nth_length (h : t.Represents (before ++ after) o) :
    t.nth before.length = t.position (after.head?.map Prod.fst) := by
  rw [h.nth_eq, List.getElem?_append_right (Nat.le_refl _), Nat.sub_self, List.head?_eq_getElem?]

theorem start_eq_nth (h : t.Represents entries o) : t.start = t.nth 0 := by
  rw [start, h.leftmost, h.nth_eq, List.head?_eq_getElem?]

theorem finish_eq_nth (h : t.Represents entries o) : t.finish = t.nth entries.length := by
  rw [finish, h.nth_eq, List.getElem?_length, Option.map_none]

/-- The positions of a tree are those with an index, up to the end. -/
theorem liveOrEnd_iff (h : t.Represents entries o) : t.LiveOrEnd p ↔ ∃ i ≤ entries.length, p = t.nth i := by
  constructor
  · intro hp
    obtain ⟨before, after, rfl, rfl⟩ := h.exists_cut hp
    exact ⟨before.length, by simp, h.nth_length.symm⟩
  · rintro ⟨i, _, rfl⟩
    refine ⟨rfl, ?_⟩
    intro slot hslot
    exact List.mem_of_getElem? hslot

theorem exists_index (h : t.Represents entries o) (hp : t.Live p) :
    ∃ before slot item after, entries = before ++ (slot, item) :: after ∧ p.slot = some slot ∧
      p = t.nth before.length := by
  obtain ⟨htag, slot, hmem, hslot⟩ := hp
  obtain ⟨before, item, after, rfl⟩ := h.exists_entry hmem
  refine ⟨before, slot, item, after, rfl, hslot, ?_⟩
  obtain ⟨pslot, ptag⟩ := p
  obtain rfl : ptag = t.tag := htag
  obtain rfl : pslot = some slot := hslot
  rw [h.nth_length]
  rfl

/-- Different indices up to the number of items are different positions. -/
theorem nth_inj (h : t.Represents entries o) (hi : i ≤ entries.length) (hj : j ≤ entries.length) :
    t.nth i = t.nth j ↔ i = j := by
  have hlength : t.shape.slots.length = entries.length := by rw [h.slots, List.length_map]
  constructor
  · intro heq
    have hslots : t.shape.slots[i]? = t.shape.slots[j]? := congrArg Position.slot heq
    by_cases hlast : i < entries.length
    · exact (List.getElem?_inj (hlength ▸ hlast) h.nodup).mp hslots
    · have hend : t.shape.slots[j]? = none := by
        rw [← hslots, List.getElem?_eq_none_iff]
        omega
      rw [List.getElem?_eq_none_iff] at hend
      omega
  · rintro rfl
    rfl

theorem inOrder_iff (h : t.Represents entries o) (hi : i ≤ entries.length) (hj : j ≤ entries.length) :
    t.InOrder (t.nth i) (t.nth j) ↔ i ≤ j := by
  constructor
  · intro hrange
    obtain ⟨before, between, after, rfl, _, _, hfirst, hlast⟩ := h.range_of_inOrder hrange
    have hi' : t.nth i = t.nth before.length := by
      have hsplit : t.Represents (before ++ (between ++ after)) o := by rwa [← List.append_assoc]
      rw [hsplit.nth_length, nth, Tree.position, ← hfirst]
      rfl
    have hj' : t.nth j = t.nth (before ++ between).length := by
      rw [h.nth_length, nth, Tree.position, ← hlast]
      rfl
    have hlength : before.length ≤ (before ++ between ++ after).length := by
      simp only [List.length_append]
      omega
    rw [(h.nth_inj hi hlength).mp hi', (h.nth_inj hj (by simp)).mp hj', List.length_append]
    omega
  · intro hij
    obtain ⟨before, between, after, rfl, rfl, rfl⟩ := exists_segment hij hj
    have hsplit : t.Represents (before ++ (between ++ after)) o := by rwa [← List.append_assoc]
    rw [h.nth_length, hsplit.nth_length]
    exact h.inOrder

end Represents

end Tree

end RedBlack
