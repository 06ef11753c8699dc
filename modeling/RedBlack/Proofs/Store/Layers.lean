import RedBlack.Proofs.Action
import RedBlack.Proofs.Store.Arena
import RedBlack.Store

namespace RedBlack

namespace Store

variable {α : Type}

/-- What a slot is used for in the arena below all layers, whatever these count,
    limit or record. -/
def use (s : Store α) : Slot → Option (Option α) :=
  s.base.use

def Sound (s : Store α) : Prop :=
  s.base.Sound

/-- Whether one more slot would be handed out. -/
def HasRoom : Store α → Prop
  | arena base => base.HasRoom
  | counting below _ _ => below.HasRoom
  | limited below remaining => remaining ≠ 0 ∧ below.HasRoom
  | recorded below _ => below.HasRoom

/-- By how much each counting layer saw more slots handed out than released, the
    top layer first. It is ahead of its releases by as much as the slots in use
    grew. -/
def surplus : Store α → List Int
  | arena _ => []
  | counting below allocations deallocations => (allocations - deallocations : Int) :: below.surplus
  | limited below _ => below.surplus
  | recorded below _ => below.surplus

/-- Whether some layer may refuse a request that the arena below would
    answer. -/
def limits : Store α → Bool
  | arena _ => false
  | counting below _ _ => below.limits
  | limited _ _ => true
  | recorded below _ => below.limits

@[simp] theorem base_setBudget (budget : Nat) (s : Store α) : (s.setBudget budget).base = s.base := by
  cases s <;> rfl

@[simp] theorem surplus_setBudget (budget : Nat) (s : Store α) : (s.setBudget budget).surplus = s.surplus := by
  cases s <;> rfl

@[simp] theorem limits_setBudget (budget : Nat) (s : Store α) : (s.setBudget budget).limits = s.limits := by
  cases s <;> rfl

theorem hasRoom_iff {s : Store α} (h : s.limits = false) : s.HasRoom ↔ s.base.HasRoom := by
  induction s with
  | arena base => rfl
  | counting below allocations deallocations ih => exact ih h
  | limited below remaining ih => cases h
  | recorded below calls ih => exact ih h

/-- A slot is handed out that was not in use, unless there is no room for it. -/
theorem Sound.allocate {s : Store α} (hs : s.Sound) :
    (∃ slot t, Store.allocate s = .ok (.ok slot, t) ∧ t.Sound ∧ s.HasRoom ∧ s.use slot = none ∧
      t.use = Function.update s.use slot (some none) ∧ t.surplus = s.surplus.map (· + 1) ∧
      t.limits = s.limits) ∨
    (∃ t, Store.allocate s = .ok (.error .noSlot, t) ∧ ¬ t.HasRoom ∧ t.base = s.base ∧
      t.surplus = s.surplus ∧ t.limits = s.limits) := by
  induction s with
  | arena base =>
    have hs : base.Sound := hs
    obtain ⟨slot, b, hrun, hb, hroom, hfree, huse⟩ | ⟨hrun, hroom⟩ := Arena.Sound.allocate hs
    · exact .inl ⟨slot, .arena b, by simp [Store.allocate, hrun], hb, hroom, hfree, huse, rfl, rfl⟩
    · exact .inr ⟨.arena base, by simp [Store.allocate, hrun], hroom, rfl, rfl, rfl⟩
  | counting below allocations deallocations ih =>
    obtain ⟨slot, t, hrun, ht, hroom, hfree, huse, hsurplus, hlimits⟩ |
      ⟨t, hrun, hroom, hbase, hsurplus, hlimits⟩ := ih hs
    · refine .inl ⟨slot, .counting t (allocations + 1) deallocations, by simp [Store.allocate, hrun], ht,
        hroom, hfree, huse, ?_, hlimits⟩
      simp only [surplus, hsurplus, List.map_cons, List.cons.injEq, and_true]
      omega
    · exact .inr ⟨.counting t allocations deallocations, by simp [Store.allocate, hrun], hroom, hbase,
        by simp [surplus, hsurplus], hlimits⟩
  | limited below remaining ih =>
    by_cases hzero : remaining = 0
    · exact .inr ⟨.limited below remaining, by simp [Store.allocate, hzero], by simp [HasRoom, hzero],
        rfl, rfl, rfl⟩
    · obtain ⟨slot, t, hrun, ht, hroom, hfree, huse, hsurplus, _⟩ |
        ⟨t, hrun, hroom, hbase, hsurplus, _⟩ := ih hs
      · exact .inl ⟨slot, .limited t (remaining - 1), by simp [Store.allocate, hzero, hrun], ht,
          ⟨hzero, hroom⟩, hfree, huse, hsurplus, rfl⟩
      · exact .inr ⟨.limited t remaining, by simp [Store.allocate, hzero, hrun], fun h => hroom h.2,
          hbase, hsurplus, rfl⟩
  | recorded below calls ih =>
    obtain ⟨slot, t, hrun, ht, hroom, hfree, huse, hsurplus, hlimits⟩ |
      ⟨t, hrun, hroom, hbase, hsurplus, hlimits⟩ := ih hs
    · exact .inl ⟨slot, .recorded t (calls.push (.allocated slot)), by simp [Store.allocate, hrun], ht,
        hroom, hfree, huse, hsurplus, hlimits⟩
    · exact .inr ⟨.recorded t (calls.push .refused), by simp [Store.allocate, hrun], hroom, hbase, hsurplus,
        hlimits⟩

theorem Sound.construct {s : Store α} {slot : Slot} (hs : s.Sound) (huse : s.use slot = some none)
    (item : α) :
    ∃ t, Store.construct slot item s = .ok t ∧ t.Sound ∧
      t.use = Function.update s.use slot (some (some item)) ∧ t.surplus = s.surplus ∧
      t.limits = s.limits := by
  induction s with
  | arena base =>
    obtain ⟨b, hrun, hb, hnew⟩ := Arena.Sound.construct (a := base) hs huse item
    exact ⟨.arena b, by simp [Store.construct, hrun], hb, hnew, rfl, rfl⟩
  | counting below allocations deallocations ih =>
    obtain ⟨t, hrun, ht, hnew, hsurplus, hlimits⟩ := ih hs huse
    exact ⟨.counting t allocations deallocations, by simp [Store.construct, hrun], ht, hnew,
      by simp [surplus, hsurplus], hlimits⟩
  | limited below remaining ih =>
    obtain ⟨t, hrun, ht, hnew, hsurplus, _⟩ := ih hs huse
    exact ⟨.limited t remaining, by simp [Store.construct, hrun], ht, hnew, hsurplus, rfl⟩
  | recorded below calls ih =>
    obtain ⟨t, hrun, ht, hnew, hsurplus, hlimits⟩ := ih hs huse
    exact ⟨.recorded t (calls.push (.constructed slot)), by simp [Store.construct, hrun], ht, hnew, hsurplus,
      hlimits⟩

theorem Sound.write {s : Store α} {slot : Slot} {old : α} (hs : s.Sound)
    (huse : s.use slot = some (some old)) (item : α) :
    ∃ t, Store.write slot item s = .ok t ∧ t.Sound ∧
      t.use = Function.update s.use slot (some (some item)) ∧ t.surplus = s.surplus ∧
      t.limits = s.limits := by
  induction s with
  | arena base =>
    obtain ⟨b, hrun, hb, hnew⟩ := Arena.Sound.write (a := base) hs huse item
    exact ⟨.arena b, by simp [Store.write, hrun], hb, hnew, rfl, rfl⟩
  | counting below allocations deallocations ih =>
    obtain ⟨t, hrun, ht, hnew, hsurplus, hlimits⟩ := ih hs huse
    exact ⟨.counting t allocations deallocations, by simp [Store.write, hrun], ht, hnew,
      by simp [surplus, hsurplus], hlimits⟩
  | limited below remaining ih =>
    obtain ⟨t, hrun, ht, hnew, hsurplus, _⟩ := ih hs huse
    exact ⟨.limited t remaining, by simp [Store.write, hrun], ht, hnew, hsurplus, rfl⟩
  | recorded below calls ih =>
    obtain ⟨t, hrun, ht, hnew, hsurplus, hlimits⟩ := ih hs huse
    exact ⟨.recorded t calls, by simp [Store.write, hrun], ht, hnew, hsurplus, hlimits⟩

/-- No slot is handed out for an item that replaces another one. -/
theorem capacity_write {s t : Store α} {slot : Slot} {item : α} (h : Store.write slot item s = .ok t) :
    t.capacity = s.capacity := by
  induction s generalizing t with
  | arena base =>
    obtain ⟨b, hrun, ht⟩ := bind_eq_ok.mp h
    obtain rfl := Except.ok.inj ht
    rw [Arena.write] at hrun
    split at hrun
    · obtain rfl := Except.ok.inj hrun
      exact Array.size_setIfInBounds
    · cases hrun
    · cases hrun
  | counting below allocations deallocations ih =>
    obtain ⟨b, hrun, ht⟩ := bind_eq_ok.mp h
    obtain rfl := Except.ok.inj ht
    have hbelow := ih hrun
    exact hbelow
  | limited below remaining ih =>
    obtain ⟨b, hrun, ht⟩ := bind_eq_ok.mp h
    obtain rfl := Except.ok.inj ht
    have hbelow := ih hrun
    exact hbelow
  | recorded below calls ih =>
    obtain ⟨b, hrun, ht⟩ := bind_eq_ok.mp h
    obtain rfl := Except.ok.inj ht
    have hbelow := ih hrun
    exact hbelow

theorem Sound.deallocate {s : Store α} {slot : Slot} {content : Option α} (hs : s.Sound)
    (huse : s.use slot = some content) :
    ∃ t, Store.deallocate slot s = .ok (content, t) ∧ t.Sound ∧
      t.use = Function.update s.use slot none ∧ t.surplus = s.surplus.map (· - 1) ∧
      t.limits = s.limits := by
  induction s with
  | arena base =>
    obtain ⟨b, hrun, hb, hnew⟩ := Arena.Sound.deallocate (a := base) hs huse
    exact ⟨.arena b, by simp [Store.deallocate, hrun], hb, hnew, rfl, rfl⟩
  | counting below allocations deallocations ih =>
    obtain ⟨t, hrun, ht, hnew, hsurplus, hlimits⟩ := ih hs huse
    refine ⟨.counting t allocations (deallocations + 1), by simp [Store.deallocate, hrun], ht, hnew, ?_, hlimits⟩
    simp only [surplus, hsurplus, List.map_cons, List.cons.injEq, and_true]
    omega
  | limited below remaining ih =>
    obtain ⟨t, hrun, ht, hnew, hsurplus, _⟩ := ih hs huse
    exact ⟨.limited t remaining, by simp [Store.deallocate, hrun], ht, hnew, hsurplus, rfl⟩
  | recorded below calls ih =>
    obtain ⟨t, hrun, ht, hnew, hsurplus, hlimits⟩ := ih hs huse
    cases content with
    | none =>
      exact ⟨.recorded t (calls.push (.deallocatedUnbuilt slot)), by simp [Store.deallocate, hrun], ht, hnew,
        hsurplus, hlimits⟩
    | some item =>
      exact ⟨.recorded t (calls.push (.deallocated slot)), by simp [Store.deallocate, hrun], ht, hnew,
        hsurplus, hlimits⟩

theorem read_eq_ok {s : Store α} {slot : Slot} {item : α} (huse : s.use slot = some (some item)) :
    s.read slot = .ok item :=
  Arena.read_eq_ok huse

end Store

end RedBlack
