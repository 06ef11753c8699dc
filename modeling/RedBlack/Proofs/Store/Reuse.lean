import RedBlack.Proofs.Store.History

namespace RedBlack

namespace Arena

variable {α : Type} {a b : Arena α} {supply slots rest : List Slot} {slot : Slot} {item : α} {later : History α}

/-- What requests make of an arena, the last one first. -/
inductive Onward (a : Arena α) : History α → Arena α → Prop where
  | here : a.Onward [] a
  | step {later : History α} {b c : Arena α} {e : Event α} : a.Onward later b → b.Step e c → a.Onward (e :: later) c

/-- How often a slot was asked for. -/
def History.requests : History α → Nat
  | [] => 0
  | .allocated _ :: h | .refused :: h => requests h + 1
  | .constructed _ _ :: h | .released _ :: h => requests h

/-- The next slots handed out are the given ones, in this order, whatever is put
    into them in between, as long as none is taken back. -/
def HandsOut (a : Arena α) (slots : List Slot) : Prop :=
  ∀ later b, a.Onward later b → (∀ slot, .released slot ∉ later) →
    ∀ slot, slots[later.requests]? = some slot → ∃ c, Arena.allocate b = .ok (.ok slot, c)

theorem Supplies.refused {error : AllocError} (h : a.Supplies supply)
    (hrun : Arena.allocate a = .ok (.error error, b)) : supply = [] := by
  cases supply with
  | nil => rfl
  | cons slot rest =>
    obtain ⟨_, hfirst, _⟩ := h.allocate_cons
    cases hrun.symm.trans hfirst

/-- One request takes a slot off the supply if it asks for one, and else leaves
    the supply as it is. -/
theorem Supplies.step {e : Event α} (h : a.Supplies supply) (hstep : a.Step e b)
    (hkept : ∀ slot, e ≠ .released slot) : b.Supplies (supply.drop (History.requests [e])) := by
  cases hstep with
  | allocated hrun =>
    obtain ⟨rest, rfl, hrest⟩ := h.allocated hrun
    exact hrest
  | refused hrun =>
    obtain rfl := h.refused hrun
    obtain rfl := eq_of_refused hrun
    exact h
  | constructed hrun => exact (h.construct hrun).2
  | released hrun => exact absurd rfl (hkept _)

theorem History.requests_cons (e : Event α) (h : History α) :
    History.requests (e :: h) = History.requests h + History.requests [e] := by
  cases e <;> rfl

/-- As long as no slot is taken back, every request for a slot goes one further
    in the supply. -/
theorem Supplies.onward (h : a.Supplies supply) (hrun : a.Onward later b) (hkept : ∀ slot, .released slot ∉ later) :
    b.Supplies (supply.drop later.requests) := by
  induction hrun with
  | here => exact h
  | @step later b c e _ hstep ih =>
    have hbefore := ih fun slot => List.not_mem_of_not_mem_cons (hkept slot)
    have hlast (slot : Slot) : e ≠ .released slot := (List.ne_of_not_mem_cons (hkept slot)).symm
    rw [History.requests_cons, ← List.drop_drop]
    exact hbefore.step hstep hlast

theorem Supplies.handsOut (h : a.Supplies (slots ++ rest)) : a.HandsOut slots := by
  intro later b hrun hkept slot hslot
  have hsupply := h.onward hrun hkept
  have hlt : later.requests < slots.length := (List.getElem?_eq_some_iff.mp hslot).1
  have hget : slots[later.requests] = slot := (List.getElem?_eq_some_iff.mp hslot).2
  rw [List.drop_append_of_le_length (Nat.le_of_lt hlt), List.drop_eq_getElem_cons hlt, hget,
    List.cons_append] at hsupply
  obtain ⟨c, hallocate, _⟩ := hsupply.allocate_cons
  exact ⟨c, hallocate⟩

theorem read_eq_ok_iff : a.read slot = .ok item ↔ a.cells[slot]? = some (.built item) := by
  cases hcell : a.cells[slot]? with
  | none => simp [read, cell, hcell]
  | some c => cases c <;> simp [read, cell, hcell]

end Arena

/-- A cell with another item. -/
def Cell.map {α β : Type} (f : α → β) : Cell α → Cell β
  | .built item => .built (f item)
  | .reserved => .reserved
  | .free next => .free next

/-- An arena with other items in the same slots. -/
def Arena.map {α β : Type} (f : α → β) (a : Arena α) : Arena β where
  cells := a.cells.map (Cell.map f)
  free := a.free

theorem Arena.deallocate_map {α β : Type} (f : α → β) (slot : Slot) (a : Arena α) :
    (a.map f).deallocate slot = (a.deallocate slot).map fun r => (r.1.map f, r.2.map f) := by
  have hrelease : (a.map f).release slot = (a.release slot).map f := by
    simp [Arena.release, Arena.map, Array.map_setIfInBounds, Cell.map]
  unfold deallocate
  rw [hrelease]
  cases hcell : a.cells[slot]? with
  | none => simp [cell, Arena.map, hcell]
  | some c => cases c <;> simp [cell, Arena.map, hcell, Cell.map]

theorem Arena.allocate_map {α β : Type} (f : α → β) (a : Arena α) :
    (a.map f).allocate = a.allocate.map fun r => (r.1, r.2.map f) := by
  have hcells (slot : Slot) : (a.map f).cells[slot]? = (a.cells[slot]?).map (Cell.map f) := by simp [map]
  have hsize : (a.map f).cells.size = a.cells.size := by simp [map]
  unfold Arena.allocate cell
  rw [show (a.map f).free = a.free from rfl]
  cases a.free with
  | none =>
    simp only [hsize]
    split <;> simp [map, Cell.map]
  | some slot =>
    simp only [hcells, hsize]
    cases a.cells[slot]? with
    | none => rfl
    | some c => cases c <;> simp [map, Cell.map, Array.map_setIfInBounds]

theorem Arena.construct_map {α β : Type} (f : α → β) (slot : Slot) (item : α) (a : Arena α) :
    (a.map f).construct slot (f item) = (a.construct slot item).map (map f) := by
  have hcells : (a.map f).cells[slot]? = (a.cells[slot]?).map (Cell.map f) := by simp [map]
  have hsize : (a.map f).cells.size = a.cells.size := by simp [map]
  unfold construct cell
  rw [hcells, hsize]
  cases a.cells[slot]? with
  | none => rfl
  | some c => cases c <;> simp [map, Cell.map, Array.map_setIfInBounds]

theorem Arena.write_map {α β : Type} (f : α → β) (slot : Slot) (item : α) (a : Arena α) :
    (a.map f).write slot (f item) = (a.write slot item).map (map f) := by
  have hcells : (a.map f).cells[slot]? = (a.cells[slot]?).map (Cell.map f) := by simp [map]
  have hsize : (a.map f).cells.size = a.cells.size := by simp [map]
  unfold write cell
  rw [hcells, hsize]
  cases a.cells[slot]? with
  | none => rfl
  | some c => cases c <;> simp [map, Cell.map, Array.map_setIfInBounds]

namespace Store

variable {α β : Type} {s t : Store α} {slots : List Slot} {slot : Slot} {item : α}

/-- A store with other items in the same slots. -/
def map (f : α → β) : Store α → Store β
  | arena base => arena (base.map f)
  | counting below allocations deallocations => counting (below.map f) allocations deallocations
  | limited below remaining => limited (below.map f) remaining
  | recorded below calls => recorded (below.map f) calls

theorem deallocate_map (f : α → β) (slot : Slot) (s : Store α) :
    (s.map f).deallocate slot = (s.deallocate slot).map fun r => (r.1.map f, r.2.map f) := by
  induction s with
  | arena base =>
    rw [map, Store.deallocate, Store.deallocate, Arena.deallocate_map]
    cases base.deallocate slot <;> rfl
  | counting below allocations deallocations ih =>
    rw [map, Store.deallocate, Store.deallocate, ih]
    cases below.deallocate slot <;> rfl
  | limited below remaining ih =>
    rw [map, Store.deallocate, Store.deallocate, ih]
    cases below.deallocate slot <;> rfl
  | recorded below calls ih =>
    rw [map, Store.deallocate, Store.deallocate, ih]
    rcases below.deallocate slot with fault | ⟨content, after⟩
    · rfl
    · cases content <;> rfl

theorem allocate_map (f : α → β) (s : Store α) :
    (s.map f).allocate = s.allocate.map fun r => (r.1, r.2.map f) := by
  induction s with
  | arena base =>
    rw [map, Store.allocate, Store.allocate, Arena.allocate_map]
    cases base.allocate <;> rfl
  | counting below allocations deallocations ih =>
    rw [map, Store.allocate, Store.allocate, ih]
    rcases below.allocate with fault | ⟨answer, after⟩
    · rfl
    · cases answer <;> rfl
  | limited below remaining ih =>
    rw [map, Store.allocate, Store.allocate, ih]
    split
    · rfl
    · rcases below.allocate with fault | ⟨answer, after⟩
      · rfl
      · cases answer <;> rfl
  | recorded below calls ih =>
    rw [map, Store.allocate, Store.allocate, ih]
    rcases below.allocate with fault | ⟨answer, after⟩
    · rfl
    · cases answer <;> rfl

theorem construct_map (f : α → β) (slot : Slot) (item : α) (s : Store α) :
    (s.map f).construct slot (f item) = (s.construct slot item).map (map f) := by
  induction s with
  | arena base =>
    rw [map, Store.construct, Store.construct, Arena.construct_map]
    cases base.construct slot item <;> rfl
  | counting below allocations deallocations ih | limited below remaining ih =>
    rw [map, Store.construct, Store.construct, ih]
    cases below.construct slot item <;> rfl
  | recorded below calls ih =>
    rw [map, Store.construct, Store.construct, ih]
    cases below.construct slot item <;> rfl

theorem write_map (f : α → β) (slot : Slot) (item : α) (s : Store α) :
    (s.map f).write slot (f item) = (s.write slot item).map (map f) := by
  induction s with
  | arena base =>
    rw [map, Store.write, Store.write, Arena.write_map]
    cases base.write slot item <;> rfl
  | counting below allocations deallocations ih | limited below remaining ih | recorded below calls ih =>
    rw [map, Store.write, Store.write, ih]
    cases below.write slot item <;> rfl

theorem base_map (f : α → β) (s : Store α) : (s.map f).base = s.base.map f := by
  induction s with
  | arena base => rfl
  | counting below allocations deallocations ih | limited below remaining ih | recorded below calls ih => exact ih

theorem read_map (f : α → β) (slot : Slot) (s : Store α) : (s.map f).read slot = (s.read slot).map f := by
  have hcells : (s.map f).base.cells[slot]? = (s.base.cells[slot]?).map (Cell.map f) := by simp [base_map, Arena.map]
  have hsize : (s.map f).base.cells.size = s.base.cells.size := by simp [base_map, Arena.map]
  unfold Store.read Arena.read Arena.cell
  rw [hcells, hsize]
  cases s.base.cells[slot]? with
  | none => rfl
  | some c => cases c <;> rfl

theorem setBudget_map (f : α → β) (budget : Nat) (s : Store α) :
    (s.map f).setBudget budget = (s.setBudget budget).map f := by
  cases s <;> rfl

/-- Takes back a slot, which must hold an item. -/
def drop (slot : Slot) (s : Store α) : Except Fault (Store α) := do
  match ← s.deallocate slot with
  | (some _, s) => return s
  | (none, _) => .error (.neverConstructed slot)

/-- Takes back slots one after the other. -/
def dropEach (slots : List Slot) (s : Store α) : Except Fault (Store α) :=
  slots.foldlM (fun s slot => s.drop slot) s

theorem drop_eq_ok : s.drop slot = .ok t ↔ ∃ item, s.deallocate slot = .ok (some item, t) := by
  rcases hrun : s.deallocate slot with fault | ⟨content, after⟩
  · simp [drop, hrun]
  · cases content <;> simp [drop, hrun]

theorem drop_map (f : α → β) (slot : Slot) (s : Store α) : (s.map f).drop slot = (s.drop slot).map (map f) := by
  rw [drop, drop, deallocate_map]
  rcases s.deallocate slot with fault | ⟨content, after⟩
  · rfl
  · cases content <;> rfl

theorem dropEach_cons (slot : Slot) (slots : List Slot) (s : Store α) :
    s.dropEach (slot :: slots) = s.drop slot >>= dropEach slots :=
  rfl

theorem dropEach_cons_eq_ok :
    s.dropEach (slot :: slots) = .ok t ↔ ∃ s₁, s.drop slot = .ok s₁ ∧ s₁.dropEach slots = .ok t := by
  rw [dropEach_cons, bind_eq_ok]

theorem dropEach_append (slots more : List Slot) (s : Store α) :
    s.dropEach (slots ++ more) = s.dropEach slots >>= dropEach more :=
  List.foldlM_append

theorem exists_deallocate {content : Option α} {b : Arena α} (h : s.base.deallocate slot = .ok (content, b)) :
    ∃ t, s.deallocate slot = .ok (content, t) := by
  induction s with
  | arena base =>
    have hbase : base.deallocate slot = .ok (content, b) := h
    exact ⟨.arena b, by rw [Store.deallocate, hbase]; rfl⟩
  | counting below allocations deallocations ih | limited below remaining ih =>
    obtain ⟨t, ht⟩ := ih h
    exact ⟨_, by rw [Store.deallocate, ht]; rfl⟩
  | recorded below calls ih =>
    obtain ⟨t, ht⟩ := ih h
    cases content <;> exact ⟨_, by rw [Store.deallocate, ht]; rfl⟩

theorem exists_drop (h : s.read slot = .ok item) : ∃ t, s.drop slot = .ok t := by
  have hbase : s.base.deallocate slot = .ok (some item, s.base.release slot) := by
    rw [Arena.deallocate, Arena.cell_eq (Arena.read_eq_ok_iff.mp h)]
  obtain ⟨t, ht⟩ := exists_deallocate hbase
  exact ⟨t, drop_eq_ok.mpr ⟨item, ht⟩⟩

theorem base_of_refused {error : AllocError} (h : Store.allocate s = .ok (.error error, t)) : t.base = s.base := by
  rw [← base_forget, forget_of_refused h, base_forget]

/-- A slot that is handed out held no item and waits for one, and no other slot
    is touched. -/
theorem cells_of_allocate (h : Store.allocate s = .ok (.ok slot, t)) :
    (∀ item, s.read slot ≠ .ok item) ∧ ∀ other, other ≠ slot → t.base.cells[other]? = s.base.cells[other]? := by
  have hbase := (allocate_eq_ok h).1
  simp only [Store.read, ne_eq, Arena.read_eq_ok_iff]
  unfold Arena.allocate at hbase
  split at hbase
  · split at hbase <;> try cases hbase
    next hfree next hcell =>
      rw [Except.ok.injEq, Prod.mk.injEq, Except.ok.injEq] at hbase
      obtain ⟨rfl, hafter⟩ := hbase
      rw [← hafter]
      refine ⟨fun item hitem => ?_, fun other hother => by simp [Ne.symm hother]⟩
      rw [Arena.cell, hitem] at hcell
      cases hcell
  · split at hbase <;> try cases hbase
    rw [Except.ok.injEq, Prod.mk.injEq, Except.ok.injEq] at hbase
    obtain ⟨rfl, hafter⟩ := hbase
    rw [← hafter]
    exact ⟨fun item hitem => by simp at hitem, fun other hother => by simp [Array.getElem?_push, hother]⟩

/-- A slot that gets its item held none, and no other slot is touched. -/
theorem cells_of_construct (h : Store.construct slot item s = .ok t) :
    (∀ old, s.read slot ≠ .ok old) ∧ t.read slot = .ok item ∧
      ∀ other, other ≠ slot → t.base.cells[other]? = s.base.cells[other]? := by
  have hbase := construct_eq_ok h
  simp only [Store.read, ne_eq, Arena.read_eq_ok_iff]
  cases hcell : s.base.cells[slot]? with
  | none => simp [Arena.construct, Arena.cell, hcell] at hbase
  | some c =>
    rw [Arena.construct, Arena.cell_eq hcell] at hbase
    cases c with
    | built old => cases hbase
    | free next => cases hbase
    | reserved =>
      obtain ⟨hlt, _⟩ := Array.getElem?_eq_some_iff.mp hcell
      rw [← Except.ok.inj hbase]
      exact ⟨fun old hold => by simp at hold, by simp [hlt], fun other hother => by simp [Ne.symm hother]⟩

theorem cells_of_deallocate {content : Option α} (h : Store.deallocate slot s = .ok (content, t)) :
    ∀ other, other ≠ slot → t.base.cells[other]? = s.base.cells[other]? := by
  obtain ⟨_, _, hbase⟩ := Arena.deallocate_eq_ok (deallocate_eq_ok h).1
  rw [hbase]
  exact fun other hother => by simp [Arena.release, Ne.symm hother]

/-- Another item is put in the place of the one in a slot, and no other slot is
    touched. -/
theorem cells_of_write (h : Store.write slot item s = .ok t) :
    t.read slot = .ok item ∧ ∀ other, other ≠ slot → t.base.cells[other]? = s.base.cells[other]? := by
  have hbase : s.base.write slot item = .ok t.base := by
    induction s generalizing t with
    | arena base =>
      obtain ⟨after, hafter, ht⟩ := bind_eq_ok.mp h
      obtain rfl := Except.ok.inj ht
      exact hafter
    | counting below allocations deallocations ih | limited below remaining ih | recorded below calls ih =>
      obtain ⟨after, hafter, ht⟩ := bind_eq_ok.mp h
      obtain rfl := Except.ok.inj ht
      exact ih (t := after) hafter
  rw [Store.read, Arena.read_eq_ok_iff]
  cases hcell : s.base.cells[slot]? with
  | none => simp [Arena.write, Arena.cell, hcell] at hbase
  | some c =>
    rw [Arena.write, Arena.cell_eq hcell] at hbase
    cases c with
    | reserved => cases hbase
    | free next => cases hbase
    | built old =>
      obtain ⟨hlt, _⟩ := Array.getElem?_eq_some_iff.mp hcell
      rw [← Except.ok.inj hbase]
      exact ⟨by simp [hlt], fun other hother => by simp [Ne.symm hother]⟩

/-- A slot that is taken back is free, and no other slot is touched. -/
theorem cells_of_drop (h : s.drop slot = .ok t) :
    (∃ next, t.base.cells[slot]? = some (.free next)) ∧
      ∀ other, other ≠ slot → t.base.cells[other]? = s.base.cells[other]? := by
  obtain ⟨item, hrun⟩ := drop_eq_ok.mp h
  obtain ⟨_, hlt, hbase⟩ := Arena.deallocate_eq_ok (deallocate_eq_ok hrun).1
  refine ⟨?_, cells_of_deallocate hrun⟩
  rw [hbase]
  exact ⟨s.base.free, by simp [Arena.release, hlt]⟩

theorem cells_of_dropEach (h : s.dropEach slots = .ok t) :
    (∀ slot ∈ slots, ∃ next, t.base.cells[slot]? = some (.free next)) ∧
      ∀ slot, slot ∉ slots → t.base.cells[slot]? = s.base.cells[slot]? := by
  induction slots generalizing s with
  | nil =>
    cases h
    exact ⟨nofun, fun _ _ => rfl⟩
  | cons first rest ih =>
    obtain ⟨s₁, hfirst, hrest⟩ := dropEach_cons_eq_ok.mp h
    obtain ⟨hfree, hothers⟩ := cells_of_drop hfirst
    obtain ⟨hfreed, hkept⟩ := ih hrest
    constructor
    · intro slot hslot
      by_cases hmem : slot ∈ rest
      · exact hfreed slot hmem
      · obtain rfl := (List.mem_cons.mp hslot).resolve_right hmem
        rw [hkept slot hmem]
        exact hfree
    · intro slot hslot
      obtain ⟨hne, hmem⟩ := List.ne_and_not_mem_of_not_mem_cons hslot
      rw [hkept slot hmem, hothers slot hne]

theorem read_of_cells_eq {s t : Store α} (hcells : t.base.cells[slot]? = s.base.cells[slot]?)
    (h : s.read slot = .ok item) : t.read slot = .ok item :=
  Arena.read_eq_ok_iff.mpr (hcells.trans (Arena.read_eq_ok_iff.mp h))

theorem read_of_allocate {answer : Except AllocError Slot} (h : Store.allocate s = .ok (answer, t))
    (hread : s.read slot = .ok item) : t.read slot = .ok item := by
  cases answer with
  | error error =>
    rw [Store.read, base_of_refused h]
    exact hread
  | ok fresh =>
    obtain ⟨hfresh, hothers⟩ := cells_of_allocate h
    refine read_of_cells_eq (hothers slot ?_) hread
    rintro rfl
    exact hfresh item hread

theorem read_of_construct {fresh : Slot} {new : α} (h : Store.construct fresh new s = .ok t)
    (hread : s.read slot = .ok item) : t.read slot = .ok item := by
  obtain ⟨hfresh, _, hothers⟩ := cells_of_construct h
  refine read_of_cells_eq (hothers slot ?_) hread
  rintro rfl
  exact hfresh item hread

/-- Slots that hold items can be taken back, each of them once, in any order:
    taking one back touches no other slot. -/
theorem exists_dropEach (hnodup : slots.Nodup) (hbuilt : ∀ slot ∈ slots, ∃ item, s.read slot = .ok item) :
    ∃ t, s.dropEach slots = .ok t := by
  induction slots generalizing s with
  | nil => exact ⟨s, rfl⟩
  | cons first rest ih =>
    obtain ⟨hfirst, hrest⟩ := List.nodup_cons.mp hnodup
    obtain ⟨item, hitem⟩ := hbuilt first List.mem_cons_self
    obtain ⟨s₁, hdrop⟩ := exists_drop hitem
    have hbuilt₁ (slot : Slot) (hslot : slot ∈ rest) : ∃ item, s₁.read slot = .ok item := by
      obtain ⟨other, hother⟩ := hbuilt slot (List.mem_cons_of_mem _ hslot)
      have hne : slot ≠ first := fun heq => hfirst (heq ▸ hslot)
      exact ⟨other, read_of_cells_eq ((cells_of_drop hdrop).2 slot hne) hother⟩
    obtain ⟨t, ht⟩ := ih hrest hbuilt₁
    exact ⟨t, dropEach_cons_eq_ok.mpr ⟨s₁, hdrop, ht⟩⟩

theorem dropEach_map (f : α → β) (slots : List Slot) (s : Store α) :
    (s.map f).dropEach slots = (s.dropEach slots).map (map f) := by
  induction slots generalizing s with
  | nil => rfl
  | cons slot rest ih =>
    rw [dropEach_cons, dropEach_cons, drop_map]
    cases s.drop slot with
    | error fault => rfl
    | ok s₁ => exact ih s₁

/-- A record shows every slot taken back, in the order in which they went. -/
theorem calls_dropEach {below : Store α} {calls : Array StoreCall} (h : (recorded below calls).dropEach slots = .ok t) :
    t.calls = calls ++ (slots.map StoreCall.deallocated).toArray := by
  induction slots generalizing below calls with
  | nil =>
    cases h
    simp [Store.calls]
  | cons slot rest ih =>
    obtain ⟨s₁, hfirst, hrest⟩ := dropEach_cons_eq_ok.mp h
    obtain ⟨item, hrun⟩ := drop_eq_ok.mp hfirst
    simp only [Store.deallocate, bind_eq_ok] at hrun
    obtain ⟨⟨content, after⟩, _, hrun⟩ := hrun
    cases content with
    | none => cases hrun
    | some other =>
      cases hrun
      rw [ih hrest]
      simp

theorem exists_arena_of_dropEach {a : Arena α} (h : (arena a).dropEach slots = .ok t) : ∃ b, t = .arena b := by
  induction slots generalizing a with
  | nil =>
    cases h
    exact ⟨a, rfl⟩
  | cons slot rest ih =>
    obtain ⟨s₁, hfirst, hrest⟩ := dropEach_cons_eq_ok.mp h
    obtain ⟨item, hrun⟩ := drop_eq_ok.mp hfirst
    simp only [Store.deallocate, bind_eq_ok, except_pure] at hrun
    obtain ⟨⟨content, after⟩, _, ⟨⟩⟩ := hrun
    exact ih hrest

/-- The slots taken back come first in the supply, the last one at the front, so
    a row of slots comes back in the reverse of the order in which it went. -/
theorem supplies_dropEach {supply : List Slot} (hs : s.base.Supplies supply) (h : s.dropEach slots = .ok t) :
    t.base.Supplies (slots.reverse ++ supply) := by
  induction slots generalizing s supply with
  | nil =>
    cases h
    exact hs
  | cons slot rest ih =>
    obtain ⟨s₁, hfirst, hrest⟩ := dropEach_cons_eq_ok.mp h
    obtain ⟨item, hrun⟩ := drop_eq_ok.mp hfirst
    have hsupply := ih (hs.deallocate (deallocate_eq_ok hrun).1) hrest
    simpa using hsupply

end Store

end RedBlack
