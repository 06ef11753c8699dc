import Mathlib.Data.List.Induction
import RedBlack.Proofs.Shape.Balance
import RedBlack.Proofs.Shape.Zoom
import RedBlack.Proofs.Store.Holding

namespace RedBlack

namespace Tree

variable {α κ : Type} {key : α → κ}

/-- A well-formed tree with the given entries in order, whose store holds
    nothing else but what is outside. What the tree answers without comparing
    keys is read off this list. Nothing is said about the order of the keys. -/
structure Represents (t : Tree key) (entries : List (Slot × α)) (o : Outside α) : Prop where
  slots : t.shape.slots = entries.map Prod.fst
  store : t.store.Holds entries o
  shape : t.shape.IsRedBlack
  leftmost : t.leftmost = entries.head?.map Prod.fst
  rightmost : t.rightmost = entries.getLast?.map Prod.fst
  size : t.size = entries.length

/-- A position of this tree that names an item. -/
def Live (t : Tree key) (p : Position) : Prop :=
  p.tag = t.tag ∧ ∃ slot ∈ t.shape.slots, p.slot = some slot

/-- A position of this tree that names an item, or its end. -/
def LiveOrEnd (t : Tree key) (p : Position) : Prop :=
  p.tag = t.tag ∧ ∀ slot, p.slot = some slot → slot ∈ t.shape.slots

/-- Two positions of this tree, the second of which is met on the way from the
    first one to the end. -/
def InOrder (t : Tree key) (first last : Position) : Prop :=
  first.tag = t.tag ∧ last.tag = t.tag ∧ ∃ before between after : List Slot,
    t.shape.slots = before ++ between ++ after ∧ first.slot = (between ++ after).head? ∧
      last.slot = after.head?

theorem represents_empty {less : κ → κ → Bool} {store : Store α} {tag : UInt64} {o : Outside α}
    (h : store.Holds [] o) : (empty key less store tag).Represents [] o where
  slots := rfl
  store := h
  shape := ⟨rfl, 0, rfl⟩
  leftmost := rfl
  rightmost := rfl
  size := rfl

namespace Represents

variable {t : Tree key} {entries before after : List (Slot × α)} {o : Outside α} {e d : Slot × α}

theorem nodup (h : t.Represents entries o) : t.shape.slots.Nodup := by
  rw [h.slots]
  exact h.store.nodup

theorem itemAt (h : t.Represents entries o) (he : e ∈ entries) : t.itemAt e.1 = .ok e.2 :=
  h.store.read he

theorem keyAt (h : t.Represents entries o) (he : e ∈ entries) : t.keyAt e.1 = .ok (key e.2) := by
  rw [Tree.keyAt, h.itemAt he, except_map]

theorem exists_entry (h : t.Represents entries o) {slot : Slot} (hmem : slot ∈ t.shape.slots) :
    ∃ before item after, entries = before ++ (slot, item) :: after := by
  rw [h.slots] at hmem
  obtain ⟨⟨s, item⟩, he, rfl⟩ := List.mem_map.mp hmem
  obtain ⟨before, after, hsplit⟩ := List.append_of_mem he
  exact ⟨before, item, after, hsplit⟩

/-- A slot of the tree, or none for the end, cuts the entries in two. -/
theorem exists_front (h : t.Represents entries o) {here : Option Slot}
    (hhere : ∀ slot, here = some slot → slot ∈ t.shape.slots) :
    ∃ front back : List (Slot × α), entries = front ++ back ∧ here = back.head?.map Prod.fst := by
  cases here with
  | none => exact ⟨entries, [], by simp, rfl⟩
  | some slot =>
    obtain ⟨before, item, after, rfl⟩ := h.exists_entry (hhere slot rfl)
    exact ⟨before, (slot, item) :: after, rfl, rfl⟩

theorem isEmpty (h : t.Represents entries o) : t.isEmpty = entries.isEmpty := by
  cases entries <;> simp [Tree.isEmpty, h.size]

theorem successor (h : t.Represents (before ++ e :: after) o) :
    t.successor (some e.1) = .ok (after.head?.map Prod.fst) := by
  have hslots : t.shape.slots = before.map Prod.fst ++ e.1 :: after.map Prod.fst := by
    rw [h.slots, List.map_append, List.map_cons]
  have hneighbour := Shape.neighbour_right h.nodup hslots
  have hitem : t.itemAt e.1 = .ok e.2 := h.itemAt (by simp)
  simp [Tree.successor, beside, hneighbour, hitem]

theorem predecessor (h : t.Represents (before ++ d :: e :: after) o) :
    t.predecessor (some e.1) = .ok d.1 := by
  have hslots : t.shape.slots = (before ++ [d]).map Prod.fst ++ e.1 :: after.map Prod.fst := by
    simp [h.slots]
  have hneighbour := Shape.neighbour_left h.nodup hslots
  have hitem : t.itemAt e.1 = .ok e.2 := h.itemAt (by simp)
  simp [Tree.predecessor, beside, hneighbour, hitem]

theorem predecessor_end (h : t.Represents (before ++ [d]) o) : t.predecessor none = .ok d.1 := by
  simp [Tree.predecessor, h.isEmpty, h.rightmost, dereference]

/-- What is read off each slot in order is read off the entries. -/
theorem mapM_slots {β : Type} {f : Slot → Except Fault β} {g : Slot × α → β} (h : t.Represents entries o)
    (hf : ∀ e ∈ entries, f e.1 = .ok (g e)) : t.shape.slots.mapM f = .ok (entries.map g) := by
  have hread (own : List (Slot × α)) (hown : ∀ e ∈ own, e ∈ entries) :
      (own.map Prod.fst).mapM f = .ok (own.map g) := by
    induction own with
    | nil => rfl
    | cons e rest ih =>
      have hrest := ih fun x hx => hown x (List.mem_cons_of_mem _ hx)
      simp [List.mapM_cons, hf e (hown e List.mem_cons_self), hrest]
  rw [h.slots]
  exact hread entries fun _ he => he

theorem items (h : t.Represents entries o) : t.items = .ok (entries.map Prod.snd) :=
  h.mapM_slots fun _ he => h.itemAt he

theorem leftmost_eq_some_iff (h : t.Represents (before ++ e :: after) o) :
    t.leftmost = some e.1 ↔ before = [] := by
  rw [h.leftmost]
  cases before with
  | nil => simp
  | cons first rest =>
    have hnodup := h.store.nodup
    simp only [List.cons_append, List.map_cons, List.nodup_cons, List.map_append, List.mem_append,
      List.mem_cons, not_or] at hnodup
    simpa using hnodup.1.2.1

theorem rightmost_eq_some_iff (h : t.Represents (before ++ e :: after) o) :
    t.rightmost = some e.1 ↔ after = [] := by
  rw [h.rightmost]
  cases after using List.reverseRecOn with
  | nil => simp
  | append_singleton rest last =>
    have hnodup := h.store.nodup
    simp only [List.map_append, List.map_cons, List.nodup_append, List.nodup_cons, List.mem_append] at hnodup
    have hne : last.1 ≠ e.1 := by
      intro heq
      exact hnodup.2.1.1 (.inr (by simp [heq]))
    have hlast : before ++ e :: (rest ++ [last]) = (before ++ e :: rest) ++ [last] := by simp
    rw [hlast, List.getLast?_append]
    simpa using hne

end Represents

end Tree

end RedBlack
