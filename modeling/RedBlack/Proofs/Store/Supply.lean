import RedBlack.Proofs.Store.Layers

namespace RedBlack

namespace Arena

variable {α : Type} {a b a₁ b₁ : Arena α} {supply frees rest : List Slot} {slot : Slot} {item : α}
  {next : Option Slot}

/-- The slots that the arena hands out from now on, in this order, if none is
    released: its free slots in the order of their list, and after them those
    that it never handed out. -/
def Supplies (a : Arena α) (supply : List Slot) : Prop :=
  ∃ frees, a.Chain a.free frees ∧ frees.Nodup ∧
    supply = frees ++ List.range' a.cells.size (Handle.maxSlots - a.cells.size)

theorem Sound.exists_supply (ha : a.Sound) : ∃ supply, a.Supplies supply := by
  obtain ⟨frees, hchain, hnodup, _⟩ := ha.free_list
  exact ⟨_, frees, hchain, hnodup, rfl⟩

theorem Supplies.hasRoom_iff (h : a.Supplies supply) : a.HasRoom ↔ supply ≠ [] := by
  obtain ⟨frees, hchain, _, rfl⟩ := h
  cases frees with
  | nil =>
    have hfree : a.free = none := hchain
    simp only [HasRoom, hfree, ne_eq, not_true_eq_false, false_or, List.nil_append, List.range'_eq_nil_iff]
    omega
  | cons slot rest =>
    obtain ⟨hfree, _⟩ := hchain
    simp [HasRoom, hfree]

theorem Chain.set (h : a.Chain next frees) (hslot : slot ∉ frees) (c : Cell α) (free : Option Slot) :
    Chain { cells := a.cells.setIfInBounds slot c, free } next frees := by
  refine h.congr fun s hs => ?_
  have hne : slot ≠ s := by
    rintro rfl
    exact hslot hs
  simp [hne]

theorem Chain.not_mem (h : a.Chain next frees) {content : Option α} (huse : a.use slot = some content) :
    slot ∉ frees := by
  intro hmem
  obtain ⟨after, hcell⟩ := h.cell_free hmem
  rw [use_of_cell hcell] at huse
  cases huse

theorem Chain.allocate_cons (h : a.Chain a.free (slot :: frees)) (hslot : slot ∉ frees) :
    ∃ b, Arena.allocate a = .ok (.ok slot, b) ∧ b.Chain b.free frees ∧ b.cells.size = a.cells.size := by
  obtain ⟨hfree, after, hcell, hrest⟩ := h
  exact ⟨{ cells := a.cells.setIfInBounds slot .reserved, free := after },
    by simp [Arena.allocate, hfree, cell_eq hcell], hrest.set hslot _ _, by simp⟩

/-- Where no slot is free a new one is handed out, as long as there are numbers
    for slots. -/
theorem allocate_nil (hfree : a.free = none) (hlt : a.cells.size < Handle.maxSlots) :
    Arena.allocate a = .ok (.ok a.cells.size, { a with cells := a.cells.push .reserved }) := by
  simp [Arena.allocate, hfree, hlt]

theorem Supplies.allocate_cons (h : a.Supplies (slot :: rest)) :
    ∃ b, Arena.allocate a = .ok (.ok slot, b) ∧ b.Supplies rest := by
  obtain ⟨frees, hchain, hnodup, hsupply⟩ := h
  cases frees with
  | nil =>
    have hfree : a.free = none := hchain
    obtain ⟨rfl, hroom, hrest⟩ := List.range'_eq_cons_iff.mp hsupply.symm
    refine ⟨_, allocate_nil hfree (by omega), [], hfree, hnodup, ?_⟩
    simp only [hrest, List.nil_append, Array.size_push]
    congr 1
  | cons first frees =>
    obtain ⟨rfl, rfl⟩ := List.cons.inj hsupply
    obtain ⟨hslot, hfrees⟩ := List.nodup_cons.mp hnodup
    obtain ⟨b, hrun, hrest, hsize⟩ := hchain.allocate_cons hslot
    exact ⟨b, hrun, frees, hrest, hfrees, by rw [hsize]; rfl⟩

/-- A slot that is handed out is the first one of the supply. -/
theorem Supplies.allocated (h : a.Supplies supply) (hrun : Arena.allocate a = .ok (.ok slot, b)) :
    ∃ rest, supply = slot :: rest ∧ b.Supplies rest := by
  cases supply with
  | nil =>
    have hroom : ¬ a.HasRoom := fun hroom => h.hasRoom_iff.mp hroom rfl
    obtain ⟨frees, hchain, _, hsupply⟩ := h
    obtain ⟨rfl, _⟩ := List.append_eq_nil_iff.mp hsupply.symm
    have hfree : a.free = none := hchain
    have hfull : ¬ a.cells.size < Handle.maxSlots := fun hlt => hroom (.inr hlt)
    simp [Arena.allocate, hfree, hfull] at hrun
  | cons first rest =>
    obtain ⟨_, hfirst, hrest⟩ := h.allocate_cons
    cases hrun.symm.trans hfirst
    exact ⟨rest, rfl, hrest⟩

theorem eq_of_refused {error : AllocError} (hrun : Arena.allocate a = .ok (.error error, b)) : b = a := by
  unfold Arena.allocate at hrun
  split at hrun
  · split at hrun <;> cases hrun
  · split at hrun <;> cases hrun
    rfl

theorem deallocate_eq_ok {content : Option α} (h : a.deallocate slot = .ok (content, b)) :
    a.use slot = some content ∧ slot < a.cells.size ∧ b = a.release slot := by
  cases hcell : a.cells[slot]? with
  | none => simp [Arena.deallocate, cell, hcell] at h
  | some c =>
    have huse := use_of_cell hcell
    have hlt := lt_size_of_cell hcell
    rw [Arena.deallocate, cell_eq hcell] at h
    cases c with
    | built item =>
      cases h
      exact ⟨huse, hlt, rfl⟩
    | reserved =>
      cases h
      exact ⟨huse, hlt, rfl⟩
    | free next => cases h

/-- Taken back, a slot that got an item in between is as good as one that never
    got any. -/
theorem deallocate_of_construct {content : Option α} (hmade : a.construct slot item = .ok a₁)
    (hback : a₁.deallocate slot = .ok (content, b)) : a.deallocate slot = .ok (none, b) := by
  obtain ⟨_, _, rfl⟩ := deallocate_eq_ok hback
  cases hcell : a.cells[slot]? with
  | none => simp [Arena.construct, cell, hcell] at hmade
  | some c =>
    rw [Arena.construct, cell_eq hcell] at hmade
    cases c with
    | reserved =>
      cases hmade
      simp [Arena.deallocate, cell_eq hcell, Arena.release]
    | built old => cases hmade
    | free next => cases hmade

theorem Supplies.deallocate {content : Option α} (h : a.Supplies supply)
    (hrun : a.deallocate slot = .ok (content, b)) : b.Supplies (slot :: supply) := by
  obtain ⟨frees, hchain, hnodup, rfl⟩ := h
  obtain ⟨huse, hlt, rfl⟩ := deallocate_eq_ok hrun
  have hslot := hchain.not_mem huse
  refine ⟨slot :: frees, ⟨rfl, a.free, ?_, hchain.set hslot _ _⟩, List.nodup_cons.mpr ⟨hslot, hnodup⟩, ?_⟩
  · simp [Arena.release, hlt]
  · simp [Arena.release]

theorem Supplies.construct (h : a.Supplies supply) (hrun : a.construct slot item = .ok b) :
    a.use slot = some none ∧ b.Supplies supply := by
  obtain ⟨frees, hchain, hnodup, rfl⟩ := h
  cases hcell : a.cells[slot]? with
  | none => simp [Arena.construct, cell, hcell] at hrun
  | some c =>
    rw [Arena.construct, cell_eq hcell] at hrun
    cases c with
    | reserved =>
      cases hrun
      have huse : a.use slot = some none := use_of_cell hcell
      exact ⟨huse, frees, hchain.set (hchain.not_mem huse) _ _, hnodup, by simp⟩
    | built item => cases hrun
    | free next => cases hrun

/-- Arenas that no request can tell apart: the same slots in use and the same
    supply. Which slots were handed out once and have been released since does
    not show. -/
structure Alike (a b : Arena α) : Prop where
  left : a.Sound
  right : b.Sound
  use : b.use = a.use
  supply : ∃ supply, a.Supplies supply ∧ b.Supplies supply

theorem Sound.alike (ha : a.Sound) (hb : b.Sound) (huse : b.use = a.use) (hsa : a.Supplies supply)
    (hsb : b.Supplies supply) : a.Alike b :=
  ⟨ha, hb, huse, supply, hsa, hsb⟩

/-- A slot that is taken back right after it was handed out leaves no trace. The
    free lists may differ then, as a slot never handed out before has moved to
    the front of one; but in the supply that slot came first anyway. -/
theorem Sound.alike_of_allocate_deallocate {content : Option α} (ha : a.Sound)
    (hallocate : Arena.allocate a = .ok (.ok slot, a₁)) (hdeallocate : a₁.deallocate slot = .ok (content, b)) :
    a.Alike b := by
  obtain ⟨supply, hsupply⟩ := ha.exists_supply
  obtain ⟨_, _, hrun, hsound, _, hfree, huse⟩ | ⟨hrun, _⟩ := ha.allocate
  · cases hallocate.symm.trans hrun
    have hslot : a₁.use slot = some none := by simp [huse]
    obtain ⟨_, hrun', hsound', huse'⟩ := hsound.deallocate hslot
    cases hdeallocate.symm.trans hrun'
    have hsame : b.use = a.use := by
      rw [huse', huse, Function.update_idem, ← hfree, Function.update_eq_self]
    obtain ⟨rest, rfl, hrest⟩ := hsupply.allocated hallocate
    exact ha.alike hsound' hsame hsupply (hrest.deallocate hdeallocate)
  · cases hallocate.symm.trans hrun

namespace Alike

theorem hasRoom_iff (h : a.Alike b) : a.HasRoom ↔ b.HasRoom := by
  obtain ⟨supply, ha, hb⟩ := h.supply
  rw [ha.hasRoom_iff, hb.hasRoom_iff]

theorem allocate {slot' : Slot} (h : a.Alike b) (ha : Arena.allocate a = .ok (.ok slot, a₁))
    (hb : Arena.allocate b = .ok (.ok slot', b₁)) : slot' = slot ∧ a₁.Alike b₁ := by
  obtain ⟨supply, hsa, hsb⟩ := h.supply
  obtain ⟨_, _, hrun, hsound, _, _, huse⟩ | ⟨hrun, _⟩ := h.left.allocate
  · obtain ⟨_, _, hrun', hsound', _, _, huse'⟩ | ⟨hrun', _⟩ := h.right.allocate
    · cases ha.symm.trans hrun
      cases hb.symm.trans hrun'
      obtain ⟨rest, rfl, hrest⟩ := hsa.allocated ha
      obtain ⟨_, hsame, hrest'⟩ := hsb.allocated hb
      cases hsame
      exact ⟨rfl, hsound.alike hsound' (by rw [huse, huse', h.use]) hrest hrest'⟩
    · cases hb.symm.trans hrun'
  · cases ha.symm.trans hrun

theorem construct (h : a.Alike b) (ha : a.construct slot item = .ok a₁) (hb : b.construct slot item = .ok b₁) :
    a₁.Alike b₁ := by
  obtain ⟨supply, hsa, hsb⟩ := h.supply
  obtain ⟨hslot, hsa⟩ := hsa.construct ha
  obtain ⟨hslot', hsb⟩ := hsb.construct hb
  obtain ⟨_, hrun, hsound, huse⟩ := h.left.construct hslot item
  obtain ⟨_, hrun', hsound', huse'⟩ := h.right.construct hslot' item
  cases ha.symm.trans hrun
  cases hb.symm.trans hrun'
  exact hsound.alike hsound' (by rw [huse, huse', h.use]) hsa hsb

theorem deallocate {content content' : Option α} (h : a.Alike b) (ha : a.deallocate slot = .ok (content, a₁))
    (hb : b.deallocate slot = .ok (content', b₁)) : a₁.Alike b₁ := by
  obtain ⟨supply, hsa, hsb⟩ := h.supply
  obtain ⟨_, hrun, hsound, huse⟩ := h.left.deallocate (deallocate_eq_ok ha).1
  obtain ⟨_, hrun', hsound', huse'⟩ := h.right.deallocate (deallocate_eq_ok hb).1
  cases ha.symm.trans hrun
  cases hb.symm.trans hrun'
  exact hsound.alike hsound' (by rw [huse, huse', h.use]) (hsa.deallocate ha) (hsb.deallocate hb)

end Alike

end Arena

namespace Store

variable {α : Type} {s t : Store α} {slot : Slot} {item : α}

/-- The store with all records of calls emptied. -/
def forget : Store α → Store α
  | arena base => arena base
  | counting below allocations deallocations => counting below.forget allocations deallocations
  | limited below remaining => limited below.forget remaining
  | recorded below _ => recorded below.forget #[]

/-- Whether some layer keeps a record of the calls. -/
def keepsRecord : Store α → Bool
  | arena _ => false
  | counting below _ _ => below.keepsRecord
  | limited below _ => below.keepsRecord
  | recorded _ _ => true

/-- What is left of the budget of each limited layer, the top layer first. -/
def budgets : Store α → List Nat
  | arena _ => []
  | counting below _ _ => below.budgets
  | limited below remaining => remaining :: below.budgets
  | recorded below _ => below.budgets

@[simp] theorem base_forget (s : Store α) : s.forget.base = s.base := by
  induction s <;> simp_all [forget, base]

@[simp] theorem keepsRecord_forget (s : Store α) : s.forget.keepsRecord = s.keepsRecord := by
  induction s <;> simp_all [forget, keepsRecord]

@[simp] theorem hasRoom_forget (s : Store α) : s.forget.HasRoom ↔ s.HasRoom := by
  induction s <;> simp_all [forget, HasRoom]

theorem forget_eq_self (h : s.keepsRecord = false) : s.forget = s := by
  induction s with
  | arena base => rfl
  | counting below allocations deallocations ih => rw [forget, ih h]
  | limited below remaining ih => rw [forget, ih h]
  | recorded below calls => cases h

theorem forget_of_refused {error : AllocError} (h : Store.allocate s = .ok (.error error, t)) :
    t.forget = s.forget := by
  induction s generalizing t with
  | arena base =>
    simp only [Store.allocate, bind_eq_ok, except_pure] at h
    obtain ⟨⟨answer, after⟩, hbase, ⟨⟩⟩ := h
    rw [Arena.eq_of_refused hbase]
  | counting below allocations deallocations ih =>
    simp only [Store.allocate, bind_eq_ok] at h
    obtain ⟨⟨answer, after⟩, hbelow, h⟩ := h
    cases answer with
    | ok slot => cases h
    | error e =>
      cases h
      rw [forget, forget, ih hbelow]
  | limited below remaining ih =>
    rw [Store.allocate] at h
    split at h
    · cases h
      rfl
    · simp only [bind_eq_ok] at h
      obtain ⟨⟨answer, after⟩, hbelow, h⟩ := h
      cases answer with
      | ok slot => cases h
      | error e =>
        cases h
        rw [forget, forget, ih hbelow]
  | recorded below calls ih =>
    simp only [Store.allocate, bind_eq_ok] at h
    obtain ⟨⟨answer, after⟩, hbelow, h⟩ := h
    cases answer with
    | ok slot => cases h
    | error e =>
      cases h
      rw [forget, forget, ih hbelow]

theorem eq_of_refused {error : AllocError} (h : Store.allocate s = .ok (.error error, t))
    (hrecord : s.keepsRecord = false) : t = s := by
  have hforget := forget_of_refused h
  have hkeeps : t.keepsRecord = false := by
    rw [← keepsRecord_forget, hforget, keepsRecord_forget, hrecord]
  rw [← forget_eq_self hkeeps, hforget, forget_eq_self hrecord]

/-- A slot that is handed out comes from the arena below, and costs every
    limited layer one unit. -/
theorem allocate_eq_ok (h : Store.allocate s = .ok (.ok slot, t)) :
    Arena.allocate s.base = .ok (.ok slot, t.base) ∧ (∀ n ∈ s.budgets, 0 < n) ∧
      t.budgets = s.budgets.map (· - 1) := by
  induction s generalizing t with
  | arena base =>
    simp only [Store.allocate, bind_eq_ok, except_pure] at h
    obtain ⟨⟨answer, after⟩, hbase, ⟨⟩⟩ := h
    exact ⟨hbase, by simp [budgets], rfl⟩
  | counting below allocations deallocations ih =>
    simp only [Store.allocate, bind_eq_ok] at h
    obtain ⟨⟨answer, after⟩, hbelow, h⟩ := h
    cases answer with
    | ok slot =>
      cases h
      exact ih (t := after) hbelow
    | error e => cases h
  | limited below remaining ih =>
    rw [Store.allocate] at h
    split at h
    · cases h
    · simp only [bind_eq_ok] at h
      obtain ⟨⟨answer, after⟩, hbelow, h⟩ := h
      cases answer with
      | ok slot =>
        cases h
        obtain ⟨hbase, hpos, hbudgets⟩ := ih hbelow
        refine ⟨hbase, List.forall_mem_cons.mpr ⟨by omega, hpos⟩, ?_⟩
        rw [budgets, budgets, hbudgets, List.map_cons]
      | error e => cases h
  | recorded below calls ih =>
    simp only [Store.allocate, bind_eq_ok] at h
    obtain ⟨⟨answer, after⟩, hbelow, h⟩ := h
    cases answer with
    | ok slot =>
      cases h
      exact ih (t := after) hbelow
    | error e => cases h

theorem construct_eq_ok (h : Store.construct slot item s = .ok t) : s.base.construct slot item = .ok t.base := by
  induction s generalizing t with
  | arena base =>
    simp only [Store.construct, bind_eq_ok, except_pure] at h
    obtain ⟨after, hbase, ⟨⟩⟩ := h
    exact hbase
  | counting below allocations deallocations ih =>
    simp only [Store.construct, bind_eq_ok, except_pure] at h
    obtain ⟨after, hbelow, ⟨⟩⟩ := h
    exact ih (t := after) hbelow
  | limited below remaining ih =>
    simp only [Store.construct, bind_eq_ok, except_pure] at h
    obtain ⟨after, hbelow, ⟨⟩⟩ := h
    exact ih (t := after) hbelow
  | recorded below calls ih =>
    simp only [Store.construct, bind_eq_ok, except_pure] at h
    obtain ⟨after, hbelow, ⟨⟩⟩ := h
    exact ih (t := after) hbelow

/-- A slot that is taken back goes to the arena below; no budget grows by it. -/
theorem deallocate_eq_ok {content : Option α} (h : Store.deallocate slot s = .ok (content, t)) :
    s.base.deallocate slot = .ok (content, t.base) ∧ t.budgets = s.budgets := by
  induction s generalizing t content with
  | arena base =>
    simp only [Store.deallocate, bind_eq_ok, except_pure] at h
    obtain ⟨⟨found, after⟩, hbase, ⟨⟩⟩ := h
    exact ⟨hbase, rfl⟩
  | counting below allocations deallocations ih =>
    simp only [Store.deallocate, bind_eq_ok, except_pure] at h
    obtain ⟨⟨found, after⟩, hbelow, ⟨⟩⟩ := h
    exact ih (t := after) hbelow
  | limited below remaining ih =>
    simp only [Store.deallocate, bind_eq_ok, except_pure] at h
    obtain ⟨⟨found, after⟩, hbelow, ⟨⟩⟩ := h
    obtain ⟨hbase, hbudgets⟩ := ih hbelow
    exact ⟨hbase, by rw [budgets, budgets, hbudgets]⟩
  | recorded below calls ih =>
    simp only [Store.deallocate, bind_eq_ok] at h
    obtain ⟨⟨found, after⟩, hbelow, h⟩ := h
    cases found with
    | none =>
      cases h
      exact ih (t := after) hbelow
    | some item =>
      cases h
      exact ih (t := after) hbelow

end Store

end RedBlack
