import Mathlib.Data.List.Nodup
import RedBlack.Proofs.Store.Layers
import RedBlack.Tree.Removal

namespace RedBlack

/-- What there is to a store besides the slots of a tree: other slots in use,
    the surplus of its counting layers without the slots of the tree, and
    whether it has a limit. -/
structure Outside (α : Type) where
  use : Slot → Option (Option α)
  surplus : List Int
  limits : Bool

namespace Outside

variable {α : Type}

/-- With one more slot in use. -/
def add (o : Outside α) (slot : Slot) (content : Option α) : Outside α where
  use := Function.update o.use slot (some content)
  surplus := o.surplus.map (· + 1)
  limits := o.limits

/-- Nothing in use, no surplus and no limit, as beside the entries of a tree in
    an arena of its own. -/
def idle : Outside α where
  use _ := none
  surplus := []
  limits := false

@[simp] theorem use_add_self (o : Outside α) (slot : Slot) (content : Option α) :
    (o.add slot content).use slot = some content := by
  simp [add]

theorem use_add_of_ne {o : Outside α} {slot s : Slot} (content : Option α) (h : s ≠ slot) :
    (o.add slot content).use s = o.use s := by
  simp [add, h]

end Outside

namespace Store

variable {α : Type}

/-- A store that holds the given entries, in slots of their own, and nothing
    else but what is outside. This is what a store is from the side of one tree;
    the rules below follow one entry on its way in and out. -/
structure Holds (s : Store α) (entries : List (Slot × α)) (o : Outside α) : Prop where
  sound : s.Sound
  nodup : (entries.map Prod.fst).Nodup
  built : ∀ e ∈ entries, s.use e.1 = some (some e.2)
  apart : ∀ e ∈ entries, o.use e.1 = none
  others : ∀ slot, slot ∉ entries.map Prod.fst → s.use slot = o.use slot
  surplus : s.surplus = o.surplus.map (· + (entries.length : Int))
  limits : s.limits = o.limits

/-- The slots have been given back, and no other slot was touched. -/
structure Released (s : Store α) (slots : List Slot) (t : Store α) : Prop where
  freed : ∀ slot ∈ slots, t.use slot = none
  others : ∀ slot, slot ∉ slots → t.use slot = s.use slot
  counted : t.surplus = s.surplus.map (· - (slots.length : Int))

theorem holds_empty : (arena .empty : Store α).Holds [] .idle where
  sound := Arena.sound_empty
  nodup := List.nodup_nil
  built := by simp
  apart := by simp
  others _ _ := Arena.use_empty _
  surplus := rfl
  limits := rfl

/-- A sound store holds no entries of a tree beside whatever it is used for. -/
theorem Sound.holds_nil {s : Store α} (h : s.Sound) : s.Holds [] ⟨s.use, s.surplus, s.limits⟩ where
  sound := h
  nodup := List.nodup_nil
  built := by simp
  apart := by simp
  others _ _ := rfl
  surplus := by simp
  limits := rfl

namespace Holds

variable {s : Store α} {entries before after : List (Slot × α)} {o : Outside α} {slot : Slot}
  {item : α}

theorem read (h : s.Holds entries o) (hmem : (slot, item) ∈ entries) : s.read slot = .ok item :=
  read_eq_ok (h.built _ hmem)

theorem ne_of_not_mem {e : Slot × α} (hslot : slot ∉ entries.map Prod.fst) (he : e ∈ entries) :
    e.1 ≠ slot := by
  rintro rfl
  exact hslot (List.mem_map_of_mem he)

theorem surplus_cons {l : List Int} {n : Nat} :
    (l.map (· + 1)).map (· + (n : Int)) = l.map (· + ((n + 1 : Nat) : Int)) := by
  rw [List.map_map]
  apply List.map_congr_left
  intro x _
  simp only [Function.comp_apply]
  omega

theorem not_mem_of_use {content : Option α} (h : s.Holds entries o)
    (huse : o.use slot = some content) : slot ∉ entries.map Prod.fst := by
  intro hmem
  obtain ⟨e, he, rfl⟩ := List.mem_map.mp hmem
  rw [h.apart e he] at huse
  cases huse

theorem allocate (h : s.Holds entries o) :
    (∃ slot t, Store.allocate s = .ok (.ok slot, t) ∧ s.HasRoom ∧ o.use slot = none ∧
      t.Holds entries (o.add slot none)) ∨
    (∃ t, Store.allocate s = .ok (.error .noSlot, t) ∧ ¬ t.HasRoom ∧ t.Holds entries o) := by
  obtain ⟨slot, t, hrun, ht, hroom, hfree, huse, hsurplus, hlimits⟩ |
    ⟨t, hrun, hroom, hbase, hsurplus, hlimits⟩ := h.sound.allocate
  · have hslot : slot ∉ entries.map Prod.fst := by
      intro hmem
      obtain ⟨e, he, rfl⟩ := List.mem_map.mp hmem
      rw [h.built e he] at hfree
      cases hfree
    have hne (e) (he : e ∈ entries) : e.1 ≠ slot := ne_of_not_mem hslot he
    refine .inl ⟨slot, t, hrun, hroom, (h.others slot hslot).symm.trans hfree, ht, h.nodup, ?_, ?_, ?_, ?_,
      hlimits.trans h.limits⟩
    · intro e he
      rw [huse, Function.update_of_ne (hne e he), h.built e he]
    · intro e he
      rw [Outside.use_add_of_ne _ (hne e he), h.apart e he]
    · intro s' hs'
      by_cases hsame : s' = slot
      · simp [hsame, huse]
      · rw [huse, Function.update_of_ne hsame, h.others s' hs', Outside.use_add_of_ne _ hsame]
    · rw [hsurplus, h.surplus, Outside.add, surplus_cons, List.map_map]
      simp [Function.comp_def, Int.add_assoc]
  · have huse : t.use = s.use := congrArg Arena.use hbase
    refine .inr ⟨t, hrun, hroom, ?_, h.nodup, ?_, h.apart, ?_, by rw [hsurplus, h.surplus], hlimits.trans h.limits⟩
    · have hsound := h.sound
      rwa [Sound, ← hbase] at hsound
    · simpa only [huse] using h.built
    · simpa only [huse] using h.others

theorem reverse (h : s.Holds entries o) : s.Holds entries.reverse o where
  sound := h.sound
  nodup := by
    rw [List.map_reverse, List.nodup_reverse]
    exact h.nodup
  built e he := h.built e (List.mem_reverse.mp he)
  apart e he := h.apart e (List.mem_reverse.mp he)
  others slot hslot := by
    rw [List.map_reverse, List.mem_reverse] at hslot
    exact h.others slot hslot
  surplus := by rw [List.length_reverse, h.surplus]
  limits := h.limits

/-- A slot outside the tree may get any other content in use. -/
theorem replace {t : Store α} {old new : Option α} (h : s.Holds entries (o.add slot old))
    (ht : t.Sound) (huse : t.use = Function.update s.use slot (some new))
    (hsurplus : t.surplus = s.surplus) (hlimits : t.limits = s.limits) :
    t.Holds entries (o.add slot new) := by
  have hslot : slot ∉ entries.map Prod.fst := h.not_mem_of_use (o.use_add_self slot old)
  have hne (e) (he : e ∈ entries) : e.1 ≠ slot := ne_of_not_mem hslot he
  refine ⟨ht, h.nodup, ?_, ?_, ?_, by rw [hsurplus, h.surplus]; rfl, hlimits.trans h.limits⟩
  · intro e he
    rw [huse, Function.update_of_ne (hne e he), h.built e he]
  · intro e he
    have hapart := h.apart e he
    rw [Outside.use_add_of_ne _ (hne e he)] at hapart ⊢
    exact hapart
  · intro s' hs'
    by_cases hsame : s' = slot
    · simp [hsame, huse]
    · rw [huse, Function.update_of_ne hsame, h.others s' hs', Outside.use_add_of_ne _ hsame,
        Outside.use_add_of_ne _ hsame]

theorem use_outside {content : Option α} (h : s.Holds entries (o.add slot content)) :
    s.use slot = some content :=
  (h.others slot (h.not_mem_of_use (o.use_add_self slot content))).trans (o.use_add_self slot content)

theorem construct (h : s.Holds entries (o.add slot none)) (item : α) :
    ∃ t, Store.construct slot item s = .ok t ∧ t.Holds entries (o.add slot (some item)) := by
  obtain ⟨t, hrun, ht, huse, hsurplus, hlimits⟩ := h.sound.construct h.use_outside item
  exact ⟨t, hrun, h.replace ht huse hsurplus hlimits⟩

/-- A slot outside the tree is taken back with what it holds. -/
theorem deallocate {content : Option α} (h : s.Holds entries (o.add slot content))
    (hfree : o.use slot = none) :
    ∃ t, Store.deallocate slot s = .ok (content, t) ∧ t.Holds entries o := by
  have hslot : slot ∉ entries.map Prod.fst := h.not_mem_of_use (o.use_add_self slot content)
  have hne (e) (he : e ∈ entries) : e.1 ≠ slot := ne_of_not_mem hslot he
  obtain ⟨t, hrun, ht, huse, hsurplus, hlimits⟩ := h.sound.deallocate h.use_outside
  refine ⟨t, hrun, ht, h.nodup, ?_, ?_, ?_, ?_, hlimits.trans h.limits⟩
  · intro e he
    rw [huse, Function.update_of_ne (hne e he), h.built e he]
  · intro e he
    have hapart := h.apart e he
    rwa [Outside.use_add_of_ne _ (hne e he)] at hapart
  · intro s' hs'
    by_cases hsame : s' = slot
    · simp [hsame, huse, hfree]
    · rw [huse, Function.update_of_ne hsame, h.others s' hs', Outside.use_add_of_ne _ hsame]
  · rw [hsurplus, h.surplus, Outside.add, surplus_cons, List.map_map]
    apply List.map_congr_left
    intro x _
    simp only [Function.comp_apply]
    omega

theorem link (h : s.Holds (before ++ after) (o.add slot (some item))) (hfree : o.use slot = none) :
    s.Holds (before ++ (slot, item) :: after) o := by
  have hslot : slot ∉ (before ++ after).map Prod.fst := h.not_mem_of_use (o.use_add_self slot _)
  have hne (e) (he : e ∈ before ++ after) : e.1 ≠ slot := ne_of_not_mem hslot he
  have hsplit (e : Slot × α) (he : e ∈ before ++ (slot, item) :: after) :
      e = (slot, item) ∨ e ∈ before ++ after := by
    simp only [List.mem_append, List.mem_cons] at he ⊢
    tauto
  refine ⟨h.sound, ?_, ?_, ?_, ?_, ?_, h.limits⟩
  · rw [List.map_append, List.map_cons, List.nodup_middle, ← List.map_append]
    exact List.nodup_cons.mpr ⟨hslot, h.nodup⟩
  · intro e he
    obtain rfl | he := hsplit e he
    · exact (h.others slot hslot).trans (o.use_add_self slot _)
    · exact h.built e he
  · intro e he
    obtain rfl | he := hsplit e he
    · exact hfree
    · have hapart := h.apart e he
      rwa [Outside.use_add_of_ne _ (hne e he)] at hapart
  · intro s' hs'
    simp only [List.map_append, List.map_cons, List.mem_append, List.mem_cons, not_or] at hs'
    have hothers := h.others s' (by simp only [List.map_append, List.mem_append, not_or]; tauto)
    rwa [Outside.use_add_of_ne _ hs'.2.1] at hothers
  · rw [h.surplus, Outside.add, surplus_cons]
    simp [Nat.add_assoc]

theorem unlink (h : s.Holds (before ++ (slot, item) :: after) o) :
    o.use slot = none ∧ s.Holds (before ++ after) (o.add slot (some item)) := by
  have hnodup := h.nodup
  rw [List.map_append, List.map_cons, List.nodup_middle, ← List.map_append] at hnodup
  obtain ⟨hslot, hrest⟩ := List.nodup_cons.mp hnodup
  have hsub (e : Slot × α) (he : e ∈ before ++ after) : e ∈ before ++ (slot, item) :: after := by
    simp only [List.mem_append, List.mem_cons] at he ⊢
    tauto
  have hne (e) (he : e ∈ before ++ after) : e.1 ≠ slot := ne_of_not_mem hslot he
  have hentry : (slot, item) ∈ before ++ (slot, item) :: after := by simp
  refine ⟨h.apart _ hentry, h.sound, hrest, fun e he => h.built e (hsub e he), ?_, ?_, ?_, h.limits⟩
  · intro e he
    rw [Outside.use_add_of_ne _ (hne e he)]
    exact h.apart e (hsub e he)
  · intro s' hs'
    by_cases hsame : s' = slot
    · rw [hsame, Outside.use_add_self]
      exact h.built _ hentry
    · rw [Outside.use_add_of_ne _ hsame]
      apply h.others
      simp only [List.map_append, List.map_cons, List.mem_append, List.mem_cons, not_or] at hs' ⊢
      tauto
  · rw [h.surplus, Outside.add, surplus_cons]
    simp [Nat.add_assoc]

theorem write (h : s.Holds (before ++ (slot, item) :: after) o) (new : α) :
    ∃ t, Store.write slot new s = .ok t ∧ t.Holds (before ++ (slot, new) :: after) o := by
  obtain ⟨hfree, hrest⟩ := h.unlink
  obtain ⟨t, hrun, ht, huse, hsurplus, hlimits⟩ := h.sound.write hrest.use_outside new
  exact ⟨t, hrun, (hrest.replace ht huse hsurplus hlimits).link hfree⟩

theorem length_le (h : s.Holds entries o) : entries.length ≤ Handle.maxSlots := by
  have hle := Arena.Sound.length_le h.sound h.nodup fun slot hslot => by
    obtain ⟨e, he, rfl⟩ := List.mem_map.mp hslot
    have hbuilt : s.base.use e.1 = some (some e.2) := h.built e he
    simp [hbuilt]
  rwa [List.length_map] at hle

/-- A store that holds some of its entries no longer has released their
    slots. -/
theorem released {t : Store α} {between : List (Slot × α)} (h : s.Holds (before ++ between ++ after) o)
    (h' : t.Holds (before ++ after) o) :
    s.Released (between.map Prod.fst) t := by
  have hperm : (before ++ between ++ after).Perm (before ++ after ++ between) := by
    rw [List.append_assoc, List.append_assoc]
    exact List.perm_append_comm.append_left before
  have hnodup := (hperm.map Prod.fst).nodup_iff.mp h.nodup
  rw [List.map_append] at hnodup
  constructor
  · intro slot hslot
    rw [h'.others slot fun hmem => List.disjoint_of_nodup_append hnodup hmem hslot]
    obtain ⟨e, he, rfl⟩ := List.mem_map.mp hslot
    exact h.apart e (by simp [he])
  · intro slot hslot
    by_cases hmem : slot ∈ (before ++ after).map Prod.fst
    · obtain ⟨e, he, rfl⟩ := List.mem_map.mp hmem
      rw [h'.built e he, h.built e (hperm.mem_iff.mpr (List.mem_append_left _ he))]
    · have hnone : slot ∉ (before ++ between ++ after).map Prod.fst := by
        rw [(hperm.map Prod.fst).mem_iff, List.map_append, List.mem_append, not_or]
        exact ⟨hmem, hslot⟩
      rw [h'.others slot hmem, h.others slot hnone]
  · rw [h'.surplus, h.surplus, List.map_map]
    apply List.map_congr_left
    intro n _
    simp only [Function.comp_apply, List.length_append, List.length_map]
    omega

/-- A store without a limit that holds nothing but the entries has room for
    more. -/
theorem hasRoom (h : s.Holds entries o) (hlimits : o.limits = false) (hidle : ∀ slot, o.use slot = none)
    (hlength : entries.length < Handle.maxSlots) : s.HasRoom := by
  rw [hasRoom_iff (h.limits.trans hlimits)]
  have hused (slot : Slot) (huse : s.base.use slot ≠ none) : slot ∈ entries.map Prod.fst := by
    by_contra hslot
    exact huse ((h.others slot hslot).trans (hidle slot))
  exact Arena.Sound.hasRoom h.sound hused (by simpa using hlength)

/-- What is left of a budget says nothing about what a store holds. -/
theorem setBudget (h : s.Holds entries o)
    (budget : Nat) : (s.setBudget budget).Holds entries o where
  sound := by
    rw [Sound, base_setBudget]
    exact h.sound
  nodup := h.nodup
  built := by
    unfold Store.use
    rw [base_setBudget]
    exact h.built
  apart := h.apart
  others := by
    unfold Store.use
    rw [base_setBudget]
    exact h.others
  surplus := by rw [surplus_setBudget, h.surplus]
  limits := by rw [limits_setBudget, h.limits]

/-- Releasing a subtree takes exactly its entries out of the store, and leaves
    whatever lay beside them. -/
theorem releaseAll {shape : Shape} {own : List (Slot × α)}
    (h : s.Holds (before ++ own ++ after) o) (hslots : shape.slots = own.map Prod.fst) :
    ∃ t, shape.releaseAll s = .ok t ∧ t.Holds (before ++ after) o := by
  induction shape generalizing s own before after with
  | nil =>
    obtain rfl : own = [] := by simpa [Shape.slots] using hslots.symm
    exact ⟨s, rfl, by simpa using h⟩
  | node color left slot right ihl ihr =>
    obtain ⟨lower, middle, rfl, hl, hmiddle⟩ := List.map_eq_append_iff.mp hslots.symm
    obtain ⟨⟨found, item⟩, upper, rfl, hfound, hr⟩ := List.map_eq_cons_iff.mp hmiddle
    obtain rfl : found = slot := hfound
    have h₀ : s.Holds ((before ++ lower ++ [(found, item)]) ++ upper ++ after) o := by simpa using h
    obtain ⟨s₁, hright, h₁⟩ := ihr h₀ hr.symm
    have h₁ : s₁.Holds ((before ++ lower) ++ (found, item) :: after) o := by simpa using h₁
    obtain ⟨hfree, h₂⟩ := h₁.unlink
    obtain ⟨s₂, hslot, h₂⟩ := h₂.deallocate hfree
    obtain ⟨s₃, hleft, h₃⟩ := ihl h₂ hl.symm
    exact ⟨s₃, by simp [Shape.releaseAll, hright, hslot, hleft], h₃⟩

end Holds

end Store

end RedBlack
