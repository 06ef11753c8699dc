import Mathlib.Data.List.Perm.Subperm
import Mathlib.Logic.Function.Basic
import RedBlack.Arena

namespace RedBlack

/-- What a cell holds for its user: nothing if it is free, and no item yet if it
    is reserved. -/
def Cell.use {α : Type} : Cell α → Option (Option α)
  | .built item => some (some item)
  | .reserved => some none
  | .free _ => none

namespace Arena

variable {α : Type}

/-- What a slot is used for. A slot that is free or was never handed out is not
    in use, so every request is answered as if the arena were a finite map from
    slots to what they are used for. -/
def use (a : Arena α) (slot : Slot) : Option (Option α) :=
  (a.cells[slot]?).bind Cell.use

/-- The list of free slots that starts at `next` runs through the given slots
    and ends. -/
def Chain (a : Arena α) : Option Slot → List Slot → Prop
  | next, [] => next = none
  | next, slot :: rest =>
    next = some slot ∧ ∃ after, a.cells[slot]? = some (.free after) ∧ a.Chain after rest

/-- The free list ends, comes by every free slot once and by no other one, and
    no number set aside names a slot. -/
structure Sound (a : Arena α) : Prop where
  bounded : a.cells.size ≤ Handle.maxSlots
  free_list : ∃ frees, a.Chain a.free frees ∧ frees.Nodup ∧
    ∀ slot next, a.cells[slot]? = some (.free next) → slot ∈ frees

/-- Whether one more slot can be handed out. -/
def HasRoom (a : Arena α) : Prop :=
  a.free ≠ none ∨ a.cells.size < Handle.maxSlots

theorem use_of_cell {a : Arena α} {slot : Slot} {c : Cell α} (h : a.cells[slot]? = some c) :
    a.use slot = c.use := by
  simp [use, h]

theorem exists_cell_of_use {a : Arena α} {slot : Slot} {content : Option α}
    (h : a.use slot = some content) :
    ∃ c, a.cells[slot]? = some c ∧ c.use = some content := by
  cases hcell : a.cells[slot]? with
  | none => simp [use, hcell] at h
  | some c => exact ⟨c, rfl, by simpa [use, hcell] using h⟩

theorem lt_size_of_cell {a : Arena α} {slot : Slot} {c : Cell α} (h : a.cells[slot]? = some c) :
    slot < a.cells.size :=
  (Array.getElem?_eq_some_iff.mp h).1

theorem cell_eq {a : Arena α} {slot : Slot} {c : Cell α} (h : a.cells[slot]? = some c) :
    a.cell slot = .ok c := by
  simp [cell, h]

theorem use_set {a : Arena α} {slot : Slot} (c : Cell α) (free : Option Slot)
    (h : slot < a.cells.size) :
    use { cells := a.cells.setIfInBounds slot c, free } = Function.update a.use slot c.use := by
  funext s
  by_cases hs : s = slot
  · subst hs
    simp [use, h]
  · simp [use, Ne.symm hs, hs]

theorem use_push (a : Arena α) (c : Cell α) (free : Option Slot) :
    use { cells := a.cells.push c, free } = Function.update a.use a.cells.size c.use := by
  funext s
  by_cases hs : s = a.cells.size
  · subst hs
    simp [use]
  · simp [use, Array.getElem?_push, hs]

theorem Chain.congr {a b : Arena α} {frees : List Slot}
    (hsame : ∀ slot ∈ frees, a.cells[slot]? = b.cells[slot]?) {next : Option Slot}
    (h : a.Chain next frees) : b.Chain next frees := by
  induction frees generalizing next with
  | nil => exact h
  | cons slot rest ih =>
    obtain ⟨rfl, after, hcell, hrest⟩ := h
    refine ⟨rfl, after, ?_, ih (fun s hs => hsame s (List.mem_cons_of_mem _ hs)) hrest⟩
    rw [← hsame slot List.mem_cons_self, hcell]

theorem Chain.cell_free {a : Arena α} {frees : List Slot} {next : Option Slot}
    (h : a.Chain next frees) {slot : Slot} (hmem : slot ∈ frees) :
    ∃ after, a.cells[slot]? = some (.free after) := by
  induction frees generalizing next with
  | nil => cases hmem
  | cons first rest ih =>
    obtain ⟨rfl, after, hcell, hrest⟩ := h
    cases hmem with
    | head => exact ⟨after, hcell⟩
    | tail _ hmem => exact ih hrest hmem

theorem Sound.set {a : Arena α} {slot : Slot} {content : Option α} (ha : a.Sound)
    (huse : a.use slot = some content) (c : Cell α) (hc : c.use ≠ none) :
    Sound { a with cells := a.cells.setIfInBounds slot c } := by
  obtain ⟨old, hcell, hold⟩ := exists_cell_of_use huse
  obtain ⟨frees, hchain, hnodup, hfrees⟩ := ha.free_list
  have hapart : slot ∉ frees := by
    intro hmem
    obtain ⟨after, hfree⟩ := hchain.cell_free hmem
    rw [hcell] at hfree
    cases hfree
    cases hold
  refine ⟨by simpa using ha.bounded, frees, hchain.congr ?_, hnodup, ?_⟩
  · intro s hs
    have hne : slot ≠ s := fun h => hapart (h ▸ hs)
    simp [hne]
  · intro s next hs
    by_cases hne : slot = s
    · subst hne
      simp only [Array.getElem?_setIfInBounds, if_true, lt_size_of_cell hcell, Option.some.injEq] at hs
      exact absurd (by rw [hs]; rfl) hc
    · simp only [Array.getElem?_setIfInBounds, hne, if_false] at hs
      exact hfrees s next hs

/-- A slot is handed out that was not in use, unless the arena is full, which
    leaves it as it is. -/
theorem Sound.allocate {a : Arena α} (ha : a.Sound) :
    (∃ slot b, Arena.allocate a = .ok (.ok slot, b) ∧ b.Sound ∧ a.HasRoom ∧ a.use slot = none ∧
      b.use = Function.update a.use slot (some none)) ∨
    (Arena.allocate a = .ok (.error .noSlot, a) ∧ ¬ a.HasRoom) := by
  obtain ⟨frees, hchain, hnodup, hfrees⟩ := ha.free_list
  cases frees with
  | nil =>
    have hfree : a.free = none := hchain
    by_cases hroom : a.cells.size < Handle.maxSlots
    · left
      refine ⟨a.cells.size, { a with cells := a.cells.push .reserved }, by simp [Arena.allocate, hfree, hroom],
        ⟨by simpa using Nat.succ_le_of_lt hroom, [], hfree, hnodup, ?_⟩, .inr hroom, by simp [use],
        use_push a .reserved _⟩
      intro slot next hcell
      by_cases hs : slot = a.cells.size
      · simp [hs] at hcell
      · exact hfrees slot next (by simpa [Array.getElem?_push, hs] using hcell)
    · exact .inr ⟨by simp [Arena.allocate, hfree, hroom], by simp [HasRoom, hfree, hroom]⟩
  | cons slot rest =>
    left
    obtain ⟨hfree, after, hcell, hrest⟩ := hchain
    obtain ⟨hslot, hrestNodup⟩ := List.nodup_cons.mp hnodup
    have hlt := lt_size_of_cell hcell
    refine ⟨slot, { cells := a.cells.setIfInBounds slot .reserved, free := after },
      by simp [Arena.allocate, hfree, cell_eq hcell], ⟨by simpa using ha.bounded, rest, ?_, hrestNodup, ?_⟩,
      .inl (by simp [hfree]), use_of_cell hcell, use_set _ _ hlt⟩
    · apply hrest.congr
      intro s hs
      have hne : slot ≠ s := fun h => hslot (h ▸ hs)
      simp [hne]
    · intro s next hs
      by_cases hne : slot = s
      · subst hne
        simp [hlt] at hs
      · simp only [Array.getElem?_setIfInBounds, hne, if_false] at hs
        exact (List.mem_cons.mp (hfrees s next hs)).resolve_left (Ne.symm hne)

theorem Sound.construct {a : Arena α} {slot : Slot} (ha : a.Sound) (huse : a.use slot = some none)
    (item : α) :
    ∃ b, a.construct slot item = .ok b ∧ b.Sound ∧ b.use = Function.update a.use slot (some (some item)) := by
  obtain ⟨c, hcell, hc⟩ := exists_cell_of_use huse
  cases c with
  | reserved =>
    exact ⟨_, by simp [Arena.construct, cell_eq hcell], ha.set huse (.built item) (by simp [Cell.use]),
      use_set _ _ (lt_size_of_cell hcell)⟩
  | built => simp [Cell.use] at hc
  | free => simp [Cell.use] at hc

theorem Sound.write {a : Arena α} {slot : Slot} {old : α} (ha : a.Sound)
    (huse : a.use slot = some (some old)) (item : α) :
    ∃ b, a.write slot item = .ok b ∧ b.Sound ∧ b.use = Function.update a.use slot (some (some item)) := by
  obtain ⟨c, hcell, hc⟩ := exists_cell_of_use huse
  cases c with
  | built =>
    exact ⟨_, by simp [Arena.write, cell_eq hcell], ha.set huse (.built item) (by simp [Cell.use]),
      use_set _ _ (lt_size_of_cell hcell)⟩
  | reserved => simp [Cell.use] at hc
  | free => simp [Cell.use] at hc

theorem read_eq_ok {a : Arena α} {slot : Slot} {item : α} (huse : a.use slot = some (some item)) :
    a.read slot = .ok item := by
  obtain ⟨c, hcell, hc⟩ := exists_cell_of_use huse
  cases c with
  | built => simp_all [Cell.use, read, cell_eq hcell]
  | reserved => simp [Cell.use] at hc
  | free => simp [Cell.use] at hc

theorem Sound.release {a : Arena α} {slot : Slot} {content : Option α} (ha : a.Sound)
    (huse : a.use slot = some content) :
    (a.release slot).Sound ∧ (a.release slot).use = Function.update a.use slot none := by
  obtain ⟨c, hcell, hc⟩ := exists_cell_of_use huse
  obtain ⟨frees, hchain, hnodup, hfrees⟩ := ha.free_list
  have hlt := lt_size_of_cell hcell
  have hapart : slot ∉ frees := by
    intro hmem
    obtain ⟨after, hfree⟩ := hchain.cell_free hmem
    rw [use_of_cell hfree] at huse
    cases huse
  refine ⟨⟨by simpa [Arena.release] using ha.bounded, slot :: frees, ⟨rfl, a.free, ?_, hchain.congr ?_⟩,
    List.nodup_cons.mpr ⟨hapart, hnodup⟩, ?_⟩, use_set _ _ hlt⟩
  · simp [Arena.release, hlt]
  · intro s hs
    have hne : slot ≠ s := fun h => hapart (h ▸ hs)
    simp [Arena.release, hne]
  · intro s next hs
    by_cases hne : slot = s
    · simp [hne]
    · simp only [Arena.release, Array.getElem?_setIfInBounds, hne, if_false] at hs
      exact List.mem_cons_of_mem _ (hfrees s next hs)

theorem Sound.deallocate {a : Arena α} {slot : Slot} {content : Option α} (ha : a.Sound)
    (huse : a.use slot = some content) :
    ∃ b, a.deallocate slot = .ok (content, b) ∧ b.Sound ∧ b.use = Function.update a.use slot none := by
  refine ⟨a.release slot, ?_, ha.release huse⟩
  obtain ⟨c, hcell, hc⟩ := exists_cell_of_use huse
  cases c with
  | built => simp_all [Cell.use, Arena.deallocate, cell_eq hcell]
  | reserved => simp_all [Cell.use, Arena.deallocate, cell_eq hcell]
  | free => simp [Cell.use] at hc

/-- Slots in use are slots handed out, so there are no more of them than numbers
    for slots. -/
theorem Sound.length_le {a : Arena α} (ha : a.Sound) {slots : List Slot} (hnodup : slots.Nodup)
    (hused : ∀ slot ∈ slots, a.use slot ≠ none) : slots.length ≤ Handle.maxSlots := by
  have hsub : slots ⊆ List.range a.cells.size := by
    intro slot hslot
    have hcell : a.cells[slot]? ≠ none := by
      intro hnone
      exact hused slot hslot (by simp [use, hnone])
    rw [List.mem_range]
    by_contra hnot
    exact hcell (Array.getElem?_eq_none (by omega))
  have hle := (List.subperm_of_subset hnodup hsub).length_le
  have hbounded := ha.bounded
  rw [List.length_range] at hle
  omega

/-- An arena runs out of room only when as many slots are in use as there are
    numbers for slots. -/
theorem Sound.hasRoom {a : Arena α} (ha : a.Sound) {slots : List Slot}
    (hused : ∀ slot, a.use slot ≠ none → slot ∈ slots) (hlength : slots.length < Handle.maxSlots) :
    a.HasRoom := by
  by_contra hfull
  obtain ⟨hfree, hsize⟩ : a.free = none ∧ ¬ a.cells.size < Handle.maxSlots := by
    simpa [HasRoom] using hfull
  obtain ⟨frees, hchain, _, hall⟩ := ha.free_list
  rw [hfree] at hchain
  have hnil : frees = [] := by
    cases frees with
    | nil => rfl
    | cons slot rest => cases hchain.1
  have hsub : List.range a.cells.size ⊆ slots := by
    intro slot hslot
    have hlt : slot < a.cells.size := List.mem_range.mp hslot
    apply hused
    have hcell : a.cells[slot]? = some a.cells[slot] := Array.getElem?_eq_getElem hlt
    rw [use_of_cell hcell]
    cases hkind : a.cells[slot] with
    | built => simp [Cell.use]
    | reserved => simp [Cell.use]
    | free next =>
      have hmem := hall slot next (by rw [hcell, hkind])
      simp [hnil] at hmem
  have hle := (List.subperm_of_subset List.nodup_range hsub).length_le
  rw [List.length_range] at hle
  omega

theorem sound_empty : (empty : Arena α).Sound where
  bounded := by simp [empty]
  free_list := ⟨[], rfl, List.nodup_nil, by simp [empty]⟩

@[simp] theorem use_empty (slot : Slot) : (empty : Arena α).use slot = none := by
  simp [use, empty]

end Arena

end RedBlack
