import RedBlack.Proofs.Forest
import RedBlack.Proofs.Tree.Ownership

namespace RedBlack

/-- A function that builds an item on each of its first `m` calls and fails on
    every later one. -/
structure FailsAfter {α ε : Type} (make : Nat → α → Except ε α) (m : Nat) (error : ε) : Prop where
  builds : ∀ call < m, ∀ item, ∃ new, make call item = .ok new
  fails : ∀ call, m ≤ call → ∀ item, make call item = .error error

namespace Store

variable {α : Type} {s t : Store α} {budget count : Nat} {slot : Slot} {item : α}

/-- Of the slots that the budget allows so many were handed out, and
    `deallocations` were taken back. -/
def Spent (s : Store α) (budget count : Nat) : Prop :=
  ∃ (base : Arena α) (deallocations : Nat),
    s = .limited (.counting (.arena base) count deallocations) (budget - count)

/-- Of the slots that the budget allows so many were handed out, and all of them
    are in use still. -/
def Grown (s : Store α) (budget count : Nat) : Prop :=
  ∃ base : Arena α, s = .limited (.counting (.arena base) count 0) (budget - count) ∧ count ≤ budget ∧
    base.free = none ∧ base.cells.size = count

theorem grown_empty (budget : Nat) :
    (.limited (.counting (.arena .empty) 0 0) budget : Store α).Grown budget 0 :=
  ⟨.empty, rfl, Nat.zero_le _, rfl, rfl⟩

theorem Grown.le (h : s.Grown budget count) : count ≤ budget := by
  obtain ⟨_, _, hle, _⟩ := h
  exact hle

theorem Grown.spent (h : s.Grown budget count) : s.Spent budget count := by
  obtain ⟨base, rfl, _⟩ := h
  exact ⟨base, 0, rfl⟩

theorem Spent.deallocate {content : Option α} (h : s.Spent budget count)
    (hrun : Store.deallocate slot s = .ok (content, t)) : t.Spent budget count := by
  obtain ⟨base, deallocations, rfl⟩ := h
  simp only [Store.deallocate, bind_eq_ok, except_pure] at hrun
  obtain ⟨_, ⟨_, ⟨⟨found, after⟩, _, ⟨⟩⟩, ⟨⟩⟩, ⟨⟩⟩ := hrun
  exact ⟨after, deallocations + 1, rfl⟩

theorem Spent.releaseAll {shape : Shape} (h : s.Spent budget count) (hrun : shape.releaseAll s = .ok t) :
    t.Spent budget count := by
  induction shape generalizing s t with
  | nil => cases hrun; exact h
  | node color left slot right ihl ihr =>
    simp only [Shape.releaseAll, bind_eq_ok] at hrun
    obtain ⟨s₁, hright, ⟨content, s₂⟩, hslot, hrun⟩ := hrun
    cases content with
    | none => cases hrun
    | some item => exact ihl ((ihr h hright).deallocate hslot) hrun

theorem Grown.allocate (h : s.Grown budget count) (hroom : count < Handle.maxSlots) :
    (count = budget ∧ Store.allocate s = .ok (.error .noSlot, s)) ∨
    (count < budget ∧ ∃ t, Store.allocate s = .ok (.ok count, t) ∧ t.Grown budget (count + 1)) := by
  obtain ⟨⟨cells, free⟩, rfl, hle, hfree, hsize⟩ := h
  obtain rfl : free = none := hfree
  have hsize : cells.size = count := hsize
  obtain hfull | hlt : count = budget ∨ count < budget := by omega
  · exact .inl ⟨hfull, by simp [Store.allocate, hfull]⟩
  · have hleft : budget - count ≠ 0 := by omega
    refine .inr ⟨hlt, .limited (.counting (.arena ⟨cells.push .reserved, none⟩) (count + 1) 0) (budget - count - 1),
      ?_, ⟨cells.push .reserved, none⟩, ?_, hlt, rfl, ?_⟩
    · simp [Store.allocate, hleft, Arena.allocate, hsize, hroom]
    · rw [Nat.sub_sub]
    · simp [hsize]

theorem Grown.construct (h : s.Grown budget count) (hrun : Store.construct slot item s = .ok t) :
    t.Grown budget count := by
  obtain ⟨base, rfl, hle, hfree, hsize⟩ := h
  simp only [Store.construct, bind_eq_ok, except_pure] at hrun
  obtain ⟨_, ⟨_, ⟨after, hbase, ⟨⟩⟩, ⟨⟩⟩, ⟨⟩⟩ := hrun
  refine ⟨after, rfl, hle, ?_⟩
  unfold Arena.construct at hbase
  split at hbase <;> cases hbase
  exact ⟨hfree, by simpa using hsize⟩

end Store

variable {α ε : Type} {budget m : Nat} {error : ε} {items more : List α} {s s' s'' : Copying α}
  {failure : Option (Failure ε)}

/-- What became of a copy of the given items, in this order, that started in one
    state and came to another. It asks for one slot and makes one call for each
    item, so whatever stopped it, it had come to just as many as the budget and
    the copying function allow. -/
inductive Tally (budget m : Nat) (error : ε) (items : List α) (s s' : Copying α) : Option (Failure ε) → Prop where
  | whole : s'.given = items.reverse ++ s.given → s'.given.length ≤ m →
    s'.store.Grown budget s'.given.length → Tally budget m error items s s' none
  | refused {visited rest : List α} : items = visited ++ rest → rest ≠ [] →
    s'.given = visited.reverse ++ s.given → s'.given.length = budget → budget ≤ m →
    s'.store.Spent budget budget → Tally budget m error items s s' (some (.alloc .noSlot))
  | failed {visited rest : List α} : items = visited ++ rest → visited ≠ [] →
    s'.given = visited.reverse ++ s.given → s'.given.length = m + 1 → m < budget →
    s'.store.Spent budget (m + 1) → Tally budget m error items s s' (some (.construct error))

namespace Tally

/-- A copy that is stopped stays where it stopped, whatever was to follow. -/
theorem stopped {f : Failure ε} (h : Tally budget m error items s s' (some f)) (more : List α) :
    Tally budget m error (items ++ more) s s' (some f) := by
  cases h with
  | @refused visited rest hitems hrest hgiven hlength hle hspent =>
    refine .refused (by rw [hitems, List.append_assoc]) (by simp [hrest]) hgiven hlength hle hspent
  | @failed visited rest hitems hvisited hgiven hlength hlt hspent =>
    refine .failed (by rw [hitems, List.append_assoc]) hvisited hgiven hlength hlt hspent

theorem trans (h : Tally budget m error items s s' none) (hmore : Tally budget m error more s' s'' failure) :
    Tally budget m error (items ++ more) s s'' failure := by
  obtain ⟨hfirst, _, _⟩ := h
  cases hmore with
  | whole hgiven hlength hgrown =>
    refine .whole ?_ hlength hgrown
    rw [hgiven, hfirst, List.reverse_append, List.append_assoc]
  | @refused visited rest hitems hrest hgiven hlength hle hspent =>
    refine .refused (by rw [hitems, List.append_assoc]) hrest ?_ hlength hle hspent
    rw [hgiven, hfirst, List.reverse_append, List.append_assoc]
  | @failed visited rest hitems hvisited hgiven hlength hlt hspent =>
    refine .failed (by rw [hitems, List.append_assoc]) (by simp [hvisited]) ?_ hlength hlt hspent
    rw [hgiven, hfirst, List.reverse_append, List.append_assoc]

/-- Giving slots back after a failure changes no count that matters. -/
theorem release {f : Failure ε} {store : Store α} (h : Tally budget m error items s s' (some f))
    (hstore : ∀ count, s'.store.Spent budget count → store.Spent budget count) :
    Tally budget m error items s { s' with store } (some f) := by
  cases h with
  | refused hitems hrest hgiven hlength hle hspent =>
    exact .refused hitems hrest hgiven hlength hle (hstore _ hspent)
  | failed hitems hvisited hgiven hlength hlt hspent =>
    exact .failed hitems hvisited hgiven hlength hlt (hstore _ hspent)

/-- A copy that starts anew is given a first part of the items. -/
theorem given_first (h : Tally budget m error items s s' failure) (hs : s.given = []) :
    s'.given.reverse <+: items := by
  cases h with
  | whole hgiven _ _ => simp [hgiven, hs]
  | refused hitems _ hgiven _ _ _ => simp [hgiven, hs, hitems]
  | failed hitems _ hgiven _ _ _ => simp [hgiven, hs, hitems]

end Tally

namespace Shape

variable {source : Store α} {make : Nat → α → Except ε α} {slot : Slot}

/-- The slots in the order in which a copy comes to them. -/
def preorder : Shape → List Slot
  | nil => []
  | node _ left slot right => slot :: (right.preorder ++ left.preorder)

theorem preorder_perm (t : Shape) : t.preorder.Perm t.slots := by
  induction t with
  | nil => exact .refl _
  | node color left slot right ihl ihr =>
    have hchildren : (right.preorder ++ left.preorder).Perm (left.slots ++ right.slots) :=
      (ihr.append ihl).trans List.perm_append_comm
    exact (hchildren.cons slot).trans List.perm_middle.symm

theorem copyItem_tally {item : α} {result : Except (Failure ε) Slot} (hmake : FailsAfter make m error)
    (hread : source.read slot = .ok item) (hs : s.store.Grown budget s.given.length) (hm : s.given.length ≤ m)
    (hroom : s.given.length < Handle.maxSlots) (hrun : copyItem source make slot s = .ok (result, s')) :
    match result with
    | .ok _ => Tally budget m error [item] s s' none
    | .error f => Tally budget m error [item] s s' (some f) := by
  obtain ⟨hfull, hallocate⟩ | ⟨hlt, store, hallocate, hgrown⟩ := Store.Grown.allocate hs hroom
  · simp only [copyItem, hallocate, ok_bind] at hrun
    cases hrun
    have hspent := Store.Grown.spent hs
    rw [hfull] at hspent
    exact .refused (List.nil_append [item]).symm (by simp) rfl hfull (by omega) hspent
  · simp only [copyItem, hallocate, ok_bind, hread] at hrun
    obtain hcall | hcall : s.given.length < m ∨ s.given.length = m := by omega
    · obtain ⟨new, hnew⟩ := hmake.builds _ hcall item
      simp only [hnew, bind_eq_ok, except_pure] at hrun
      obtain ⟨after, hconstruct, ⟨⟩⟩ := hrun
      exact .whole rfl hcall (Store.Grown.construct hgrown hconstruct)
    · have hfails := hmake.fails _ (Nat.le_of_eq hcall.symm) item
      simp only [hfails, bind_eq_ok, except_pure] at hrun
      obtain ⟨⟨content, after⟩, hdeallocate, ⟨⟩⟩ := hrun
      refine .failed (List.append_nil [item]).symm (by simp) rfl (by simp [hcall]) (by omega) ?_
      rw [← hcall]
      exact (Store.Grown.spent hgrown).deallocate hdeallocate

/-- A copy of a subtree comes to its items in preorder: the node first, then the
    right subtree, then the left one. -/
theorem copy_tally {shape : Shape} {r : Partial ε α} (hmake : FailsAfter make m error)
    (hread : shape.preorder.mapM source.read = .ok items) (hs : s.store.Grown budget s.given.length)
    (hm : s.given.length ≤ m) (hroom : s.given.length + items.length ≤ Handle.maxSlots)
    (hrun : shape.copy source make s = .ok r) : Tally budget m error items s r.state r.failure := by
  induction shape generalizing s items r with
  | nil =>
    cases hread
    cases hrun
    exact .whole rfl hm hs
  | node color left slot right ihl ihr =>
    simp only [preorder, List.mapM_cons, List.mapM_append, bind_eq_ok, except_pure] at hread
    obtain ⟨item, hitem, _, ⟨upper, hupper, lower, hlower, ⟨⟩⟩, ⟨⟩⟩ := hread
    simp only [List.length_cons, List.length_append] at hroom
    rw [copy, bind_eq_ok] at hrun
    obtain ⟨⟨result, s₁⟩, hfirst, hrun⟩ := hrun
    have htop := copyItem_tally hmake hitem hs hm (by omega) hfirst
    cases result with
    | error f =>
      cases hrun
      exact htop.stopped _
    | ok fresh =>
      have hs₁ := htop
      obtain ⟨hgiven₁, hm₁, hgrown₁⟩ := htop
      simp only [bind_eq_ok] at hrun
      obtain ⟨r₁, hright, hrun⟩ := hrun
      have hlength₁ : s₁.given.length = s.given.length + 1 := by simp [hgiven₁]
      have hr := ihr hupper hgrown₁ hm₁ (by omega) hright
      cases hfailed : r₁.failure with
      | some f =>
        simp only [hfailed, bind_eq_ok, except_pure] at hrun hr
        obtain ⟨store, hrelease, ⟨⟩⟩ := hrun
        exact hs₁.trans ((hr.stopped lower).release fun _ hspent => hspent.releaseAll hrelease)
      | none =>
        simp only [hfailed, bind_eq_ok, except_pure] at hrun hr
        obtain ⟨l, hleft, ⟨⟩⟩ := hrun
        have hs₂ := hr
        obtain ⟨hgiven₂, hm₂, hgrown₂⟩ := hr
        have hlength₂ : r₁.state.given.length = s₁.given.length + upper.length := by
          simp [hgiven₂, Nat.add_comm]
        have hl := ihl hlower hgrown₂ hm₂ (by omega) hleft
        exact hs₁.trans (hs₂.trans hl)

end Shape

theorem exists_mapM {β : Type} {f : Slot → Except Fault β} {slots : List Slot}
    (h : ∀ slot ∈ slots, ∃ b, f slot = .ok b) : ∃ bs, slots.mapM f = .ok bs ∧ bs.length = slots.length := by
  induction slots with
  | nil => exact ⟨[], rfl, rfl⟩
  | cons slot rest ih =>
    obtain ⟨b, hb⟩ := h slot List.mem_cons_self
    obtain ⟨bs, hbs, hlength⟩ := ih fun s hs => h s (List.mem_cons_of_mem _ hs)
    exact ⟨b :: bs, by simp [List.mapM_cons, hb, hbs], by simp [hlength]⟩

theorem mapM_take {β : Type} {f : Slot → Except Fault β} {slots : List Slot} {bs : List β}
    (h : slots.mapM f = .ok bs) (n : Nat) : (slots.take n).mapM f = .ok (bs.take n) := by
  induction slots generalizing n bs with
  | nil => cases h; simp
  | cons slot rest ih =>
    simp only [List.mapM_cons, bind_eq_ok, except_pure] at h
    obtain ⟨b, hb, bs, hbs, ⟨⟩⟩ := h
    cases n with
    | zero => rfl
    | succ n => simp [List.mapM_cons, hb, ih hbs n]

/-- A store of which a copy took and gave back so many slots: nothing in it is
    in use. -/
def Store.RolledBack (s : Store α) (budget count : Nat) : Prop :=
  ∃ base : Arena α, s = .limited (.counting (.arena base) count count) (budget - count) ∧ ∀ slot, base.use slot = none

theorem Store.Spent.rolledBack {store : Store α} {count : Nat} (h : store.Spent budget count)
    (hidle : store.Idle) : store.RolledBack budget count := by
  obtain ⟨base, deallocations, rfl⟩ := h
  have hzero : (count : Int) - deallocations = 0 := hidle.balanced _ List.mem_cons_self
  obtain rfl : deallocations = count := by omega
  exact ⟨base, rfl, hidle.unused⟩

namespace Tree

variable {κ ε' : Type} {key : α → κ} {t : Tree key} {entries : List (Slot × α)} {o : Outside α}
  {make : Nat → α → Except ε α}

theorem Represents.exists_preorder (h : t.Represents entries o) :
    ∃ items, t.shape.preorder.mapM t.itemAt = .ok items ∧ items.length = t.size := by
  have hperm := t.shape.preorder_perm
  have hread (slot : Slot) (hslot : slot ∈ t.shape.preorder) : ∃ item, t.itemAt slot = .ok item := by
    obtain ⟨before, item, after, rfl⟩ := h.exists_entry (hperm.mem_iff.mp hslot)
    exact ⟨item, h.itemAt (e := (slot, item)) (by simp)⟩
  obtain ⟨items, hitems, hlength⟩ := exists_mapM hread
  refine ⟨items, hitems, ?_⟩
  rw [hlength, hperm.length_eq, h.slots, List.length_map, h.size]

/-- A copy within a budget is whole, refused a slot or without an item, each for
    the one reason there is. -/
theorem Represents.copyWith_tally (h : t.Represents entries o) (hmake : FailsAfter make m error) (budget : Nat)
    (tag : UInt64) :
    ∃ replica items, t.copyWith make (.limited (.counting (.arena .empty) 0 0) budget) tag = .ok replica ∧
      t.shape.preorder.mapM t.itemAt = .ok items ∧ replica.given <+: items ∧
      ((∃ copy, replica.result = .ok copy ∧ replica.given.length = t.size ∧ t.size ≤ budget ∧ t.size ≤ m) ∨
      (∃ store, replica.result = .error (.alloc .noSlot, store) ∧ replica.given.length = budget ∧ budget ≤ m ∧
        budget < t.size ∧ store.RolledBack budget budget) ∨
      ∃ store, replica.result = .error (.construct error, store) ∧ replica.given.length = m + 1 ∧ m < budget ∧
        m < t.size ∧ store.RolledBack budget (m + 1)) := by
  obtain ⟨items, hitems, hlength⟩ := h.exists_preorder
  obtain ⟨o', ho', hempty⟩ := ((Store.idle_empty.counting 0).limited budget).exists_holds (α := α)
  obtain ⟨replica, hrun, hresult⟩ := h.copyWith make tag hempty
  refine ⟨replica, items, hrun, hitems, ?_⟩
  rw [Tree.copyWith, bind_eq_ok] at hrun
  obtain ⟨r, hcopy, hrun⟩ := hrun
  have htally := Shape.copy_tally hmake hitems (s := { store := _, given := [] }) (Store.grown_empty budget)
    (Nat.zero_le m) (by simpa [hlength, h.size] using h.store.length_le) hcopy
  have hfirst := htally.given_first rfl
  have hle := hfirst.length_le
  rw [List.length_reverse, hlength] at hle
  cases hfailed : r.failure with
  | none =>
    simp only [hfailed, except_pure] at hrun htally
    cases hrun
    obtain ⟨hgiven, hm, hgrown⟩ := htally
    have hall : r.state.given.length = t.size := by simp [hgiven, hlength]
    have hbudget := hgrown.le
    rw [hall] at hm hbudget
    exact ⟨hfirst, .inl ⟨_, rfl, by simpa using hall, hbudget, hm⟩⟩
  | some failure =>
    simp only [hfailed, bind_eq_ok, except_pure] at hrun htally
    obtain ⟨store, hrelease, ⟨⟩⟩ := hrun
    obtain ⟨_, _, hok, _⟩ | ⟨_, _, herror, hheld, _⟩ := hresult
    · cases hok
    cases herror
    refine ⟨hfirst, .inr ?_⟩
    cases htally with
    | @refused visited rest hsplit hrest hgiven hcount hle hspent =>
      have hpos := List.length_pos_iff.mpr hrest
      have hmore : items.length = visited.length + rest.length := by rw [hsplit, List.length_append]
      have hlength : visited.length = budget := by simpa [hgiven] using hcount
      exact .inl ⟨store, rfl, by simpa using hcount, hle, by omega,
        (hspent.releaseAll hrelease).rolledBack (hheld.idle ho')⟩
    | @failed visited rest hsplit hvisited hgiven hcount hlt hspent =>
      exact .inr ⟨store, rfl, by simpa using hcount, hlt, by omega,
        (hspent.releaseAll hrelease).rolledBack (hheld.idle ho')⟩

/-- Copying a tree into a fresh store within a budget comes about exactly if the
    budget and the copying function reach as far as the items do. Otherwise the
    one that gives out first is what is reported, after as many slots and calls
    as it allowed, and every slot has been given back. The items that the
    copying function was given are those of the first nodes in preorder. -/
theorem copyWith_all_or_nothing {f : Forest key} {t : Tree key}
    (hf : f.Reachable fun f (c : Forest.Command α κ ε') => c.Legal f) (ht : t ∈ f.trees)
    (hmake : FailsAfter make m error) (budget : Nat) (tag : UInt64) :
    ∃ replica, t.copyWith make (.limited (.counting (.arena .empty) 0 0) budget) tag = .ok replica ∧
      ((∃ copy, replica.result = .ok copy) ↔ t.size ≤ budget ∧ t.size ≤ m) ∧
      (∀ copy, replica.result = .ok copy → replica.given.length = t.size) ∧
      (budget ≤ m → budget < t.size → replica.given.length = budget ∧
        ∃ store, replica.result = .error (.alloc .noSlot, store) ∧ store.RolledBack budget budget) ∧
      (m < budget → m < t.size → replica.given.length = m + 1 ∧
        ∃ store, replica.result = .error (.construct error, store) ∧ store.RolledBack budget (m + 1)) ∧
      (t.shape.preorder.take replica.given.length).mapM t.itemAt = .ok replica.given ∧
      t.shape.preorder.Perm t.shape.slots ∧ t.shape.preorder.Nodup := by
  obtain ⟨entries, o, h⟩ := hf.represents ht
  obtain ⟨replica, items, hrun, hitems, hvisited, houtcome⟩ := h.copyWith_tally hmake budget tag
  have hperm := t.shape.preorder_perm
  have hgiven := mapM_take hitems replica.given.length
  rw [← List.prefix_iff_eq_take.mp hvisited] at hgiven
  have hnodup := hperm.nodup_iff.mpr h.nodup
  obtain ⟨copy, hresult, hcount, hb, hm⟩ | ⟨store, hresult, hcount, hfirst, hlt, hback⟩ |
    ⟨store, hresult, hcount, hfirst, hlt, hback⟩ := houtcome
  · refine ⟨replica, hrun, ⟨fun _ => ⟨hb, hm⟩, fun _ => ⟨copy, hresult⟩⟩, fun _ _ => hcount, ?_, ?_,
      hgiven, hperm, hnodup⟩ <;> omega
  · refine ⟨replica, hrun, ⟨?_, by omega⟩, ?_, fun _ _ => ⟨hcount, store, hresult, hback⟩, by omega,
      hgiven, hperm, hnodup⟩ <;> simp [hresult]
  · refine ⟨replica, hrun, ⟨?_, by omega⟩, ?_, by omega, fun _ _ => ⟨hcount, store, hresult, hback⟩,
      hgiven, hperm, hnodup⟩ <;> simp [hresult]

/-- A tree of three items is copied with room for two of them and a copying
    function that builds four; then with room for five and a copying function
    that builds one. -/
theorem copyWith_all_or_nothing_three :
    ∃ (t : Tree (id : Nat → Nat)) (make : Nat → Nat → Nat → Except String Nat), t.size = 3 ∧
      (∃ replica, t.copyWith (make 4) (.limited (.counting (.arena .empty) 0 0) 2) 7 = .ok replica ∧
        replica.given = [2, 3] ∧
        ∃ store, replica.result = .error (.alloc .noSlot, store) ∧ store.RolledBack 2 2) ∧
      ∃ replica, t.copyWith (make 1) (.limited (.counting (.arena .empty) 0 0) 5) 7 = .ok replica ∧
        replica.given = [2, 3] ∧
        ∃ store, replica.result = .error (.construct "no item", store) ∧ store.RolledBack 5 2 := by
  let make (m call item : Nat) : Except String Nat := if call < m then .ok item else .error "no item"
  have hmake (m : Nat) : FailsAfter (make m) m "no item" :=
    ⟨fun call hcall item => ⟨item, if_pos hcall⟩, fun call hcall item => if_neg (by omega)⟩
  have h₀ : Forest.Reachable (fun f (c : Forest.Command Nat Nat Empty) => c.Legal f) (.empty (id : Nat → Nat)) :=
    .empty
  have h₁ := h₀.step (c := .plant (fun a b => decide (a < b)) (.arena .empty)) Arena.sound_empty
  have h₂ := h₁.step (c := .onTree 0 (.insertUnique 1)) ⟨_, rfl, trivial⟩
  have h₃ := h₂.step (c := .onTree 0 (.insertUnique 2)) ⟨_, rfl, trivial⟩
  have h₄ := h₃.step (c := .onTree 0 (.insertUnique 3)) ⟨_, rfl, trivial⟩
  have hcopy (m budget : Nat) := copyWith_all_or_nothing h₄ (Array.mem_of_getElem? (i := 0) rfl) (hmake m) budget 7
  obtain ⟨replica, hrun, _, _, hrefused, _, hgiven, _⟩ := hcopy 4 2
  obtain ⟨replica', hrun', _, _, _, hfailed, hgiven', _⟩ := hcopy 1 5
  obtain ⟨hcount, hback⟩ := hrefused (by decide) (by decide +kernel)
  obtain ⟨hcount', hback'⟩ := hfailed (by decide) (by decide +kernel)
  rw [hcount] at hgiven
  rw [hcount'] at hgiven'
  exact ⟨_, make, by decide +kernel, ⟨replica, hrun, (Except.ok.inj hgiven).symm, hback⟩,
    replica', hrun', (Except.ok.inj hgiven').symm, hback'⟩

end Tree

end RedBlack
