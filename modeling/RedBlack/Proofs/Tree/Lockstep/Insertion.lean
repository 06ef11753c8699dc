import Mathlib.Logic.Equiv.Basic
import RedBlack.Proofs.Store.Supply
import RedBlack.Proofs.Tree.Inquiries

namespace RedBlack

/-- The renaming that takes one slot to another, and all the rest where they
    went before. As neither of the two slots holds an entry yet, no entry is
    renamed otherwise than before. -/
def redirect (σ : Equiv.Perm Slot) (a b : Slot) : Equiv.Perm Slot :=
  σ.trans (Equiv.swap (σ a) b)

@[simp] theorem redirect_self (σ : Equiv.Perm Slot) (a b : Slot) : redirect σ a b a = b := by
  simp [redirect]

theorem redirect_of_ne {σ : Equiv.Perm Slot} {a b slot : Slot} (ha : slot ≠ a) (hb : σ slot ≠ b) :
    redirect σ a b slot = σ slot :=
  Equiv.swap_apply_of_ne_of_ne (σ.injective.ne ha) hb

namespace Store

variable {α : Type} {s t : Store α}

/-- What is known of two stores under a renaming of slots, and stays known
    whatever is asked of both. Where each of them hands out a slot, the renaming
    is changed so that it takes one of these to the other. -/
structure Linked (K : Equiv.Perm Slot → Store α → Store α → Prop) : Prop where
  allocated : ∀ {σ s t s₁ t₁ a b}, K σ s t → Store.allocate s = .ok (.ok a, s₁) →
    Store.allocate t = .ok (.ok b, t₁) → K (redirect σ a b) s₁ t₁
  refused : ∀ {σ s t s₁ t₁ error error'}, K σ s t → Store.allocate s = .ok (.error error, s₁) →
    Store.allocate t = .ok (.error error', t₁) → K σ s₁ t₁
  constructed : ∀ {σ s t s₁ t₁ slot item}, K σ s t → Store.construct slot item s = .ok s₁ →
    Store.construct (σ slot) item t = .ok t₁ → K σ s₁ t₁
  deallocated : ∀ {σ s t s₁ t₁ slot content content'}, K σ s t → Store.deallocate slot s = .ok (content, s₁) →
    Store.deallocate (σ slot) t = .ok (content', t₁) → K σ s₁ t₁

theorem hasRoom_of_refused {error : AllocError} (h : Store.allocate s = .ok (.error error, t)) :
    t.HasRoom ↔ s.HasRoom := by
  rw [← hasRoom_forget t, forget_of_refused h, hasRoom_forget]

end Store

namespace Tree

variable {α κ ε ρ : Type} {key : α → κ} {K : Equiv.Perm Slot → Store α → Store α → Prop}
  {σ σ₁ : Equiv.Perm Slot} {t u t₁ u₁ t₂ u₂ : Tree key} {entries before after : List (Slot × α)}
  {o o' p p' : Outside α} {slot : Slot} {item : α} {stopped : Tree key → Tree key → Prop}

/-- A later renaming that takes the slots of the entries where the earlier one
    takes them. -/
def Agree (entries : List (Slot × α)) (σ σ₁ : Equiv.Perm Slot) : Prop :=
  ∀ slot ∈ entries.map Prod.fst, σ₁ slot = σ slot

theorem Agree.map_entries (h : Agree entries σ σ₁) :
    entries.map (Prod.map σ₁ id) = entries.map (Prod.map σ id) := by
  apply List.map_congr_left
  intro e he
  rw [Prod.map_apply, Prod.map_apply, h e.1 (List.mem_map_of_mem he)]

/-- Two trees in later states of the given ones, that differ in their slots only
    again. The renaming may have grown by new pairs of slots; all that was found
    out before about the others stays true of it. -/
def Follows (K : Equiv.Perm Slot → Store α → Store α → Prop) (o o' : Outside α) (t u t₁ u₁ : Tree key) : Prop :=
  t₁.Continues t ∧ u₁.Continues u ∧ ∃ σ entries, t₁.Coupled K σ u₁ entries o o'

theorem Coupled.follows (h : t.Coupled K σ u entries o o') : Follows K o o' t u t u :=
  ⟨.refl t, .refl u, σ, entries, h⟩

theorem Follows.trans (h : Follows K o o' t u t₁ u₁) (h' : Follows K p p' t₁ u₁ t₂ u₂) :
    Follows K p p' t u t₂ u₂ :=
  ⟨h'.1.trans h.1, h'.2.1.trans h.2.1, h'.2.2⟩

/-- A reply that names one position is the mirror image of the one that names
    its counterpart. -/
theorem Coupled.mirrors_at {f : Position → Reply α ε} {x y : Position} (h : t.Coupled K σ u entries o o')
    (hxy : t.Pairs σ u x y) (hpositions : ∀ p, (f p).positions = [p])
    (hmove : ∀ place p, (f p).move place = f (place p)) :
    (f x).Mirrors t u (f y) := by
  obtain ⟨hx, rfl⟩ := h.named hxy
  refine ⟨?_, (hmove _ _).symm⟩
  rw [hpositions]
  simpa using hx

theorem Reply.Mirrors.unique {x y : Except AllocError Position}
    (h : Reply.Mirrors t u (.equal x : Reply α ε) (.equal y)) :
    Reply.Mirrors t u (.unique (x.map fun p => (p, true)) : Reply α ε) (.unique (y.map fun p => (p, true))) := by
  obtain ⟨hlive, hmove⟩ := h
  obtain rfl : y = x.map (t.counterpart u) := Reply.equal.inj hmove
  cases x with
  | ok p => exact ⟨hlive, rfl⟩
  | error error => exact .plain rfl rfl

namespace Coupled

theorem withStore {s s' : Store α} (h : t.Coupled K σ u entries o o') (hs : s.Holds entries p)
    (hs' : s'.Holds (entries.map (Prod.map σ id)) p') (hK : K σ s s') :
    ({ t with store := s } : Tree key).Coupled K σ { u with store := s' } entries p p' where
  left := h.left.withStore hs
  right := h.right.withStore hs'
  shape := h.shape
  less := h.less
  store := hK

/-- The renaming may be any other one that agrees with it on the slots of the
    tree. -/
theorem agree {s s' : Store α} (h : t.Coupled K σ u entries o o') (hσ : Agree entries σ σ₁)
    (hs : s.Holds entries p) (hs' : s'.Holds (entries.map (Prod.map σ id)) p') (hK : K σ₁ s s') :
    ({ t with store := s } : Tree key).Coupled K σ₁ { u with store := s' } entries p p' where
  left := h.left.withStore hs
  right := by
    rw [hσ.map_entries]
    exact h.right.withStore hs'
  shape := by
    rw [h.shape]
    refine Shape.rename_congr fun slot hslot => (hσ slot ?_).symm
    rwa [← h.left.slots]
  less := h.less
  store := hK

/-- Both stores hand out a slot, and the renaming takes one of these to the
    other, or both refuse. -/
theorem allocate (hK : Store.Linked K) (h : t.Coupled K σ u entries o o')
    (hroom : t.store.HasRoom ↔ u.store.HasRoom) :
    Action.Matched (Tree.allocate : Op key _) Tree.allocate t u (fun x t₁ y u₁ => t₁.Continues t ∧ u₁.Continues u ∧
      t₁.shape = t.shape ∧
      ((∃ slot σ₁, x = .ok slot ∧ y = .ok (σ₁ slot) ∧ Agree entries σ σ₁ ∧ o.use slot = none ∧
          o'.use (σ₁ slot) = none ∧ t₁.Coupled K σ₁ u₁ entries (o.add slot none) (o'.add (σ₁ slot) none)) ∨
        (x = .error .noSlot ∧ y = .error .noSlot ∧ t₁.Coupled K σ u₁ entries o o'))) stopped := by
  obtain ⟨a, s, hs, hroom₁, hfree, hheld⟩ | ⟨s, hs, hfull, hheld⟩ := h.left.store.allocate <;>
    obtain ⟨b, s', hs', hroom₁', hfree', hheld'⟩ | ⟨s', hs', hfull', hheld'⟩ := h.right.store.allocate
  · refine .step_ok (by rw [hs]; rfl) (by rw [hs']; rfl) ?_
    refine ⟨⟨rfl, rfl⟩, ⟨rfl, rfl⟩, rfl, .inl ?_⟩
    have hagree : Agree entries σ (redirect σ a b) := by
      intro slot hslot
      have ha : slot ≠ a := by
        rintro rfl
        exact hheld.not_mem_of_use (o.use_add_self slot none) hslot
      have hb : σ slot ≠ b := by
        rintro rfl
        refine hheld'.not_mem_of_use (o'.use_add_self _ none) ?_
        obtain ⟨e, he, rfl⟩ := List.mem_map.mp hslot
        exact List.mem_map.mpr ⟨_, List.mem_map_of_mem he, rfl⟩
      exact redirect_of_ne ha hb
    have hstore := hK.allocated h.store hs hs'
    refine ⟨a, _, rfl, by rw [redirect_self], hagree, hfree, by rwa [redirect_self], ?_⟩
    rw [redirect_self]
    exact h.agree hagree hheld hheld' hstore
  · exact absurd (hroom.mp hroom₁) ((Store.hasRoom_of_refused hs').not.mp hfull')
  · exact absurd (hroom.mpr hroom₁') ((Store.hasRoom_of_refused hs).not.mp hfull)
  · refine .step_ok (by rw [hs]; rfl) (by rw [hs']; rfl) ?_
    exact ⟨⟨rfl, rfl⟩, ⟨rfl, rfl⟩, rfl, .inr ⟨rfl, rfl, h.withStore hheld hheld' (hK.refused h.store hs hs')⟩⟩

theorem construct (hK : Store.Linked K) (h : t.Coupled K σ u entries (o.add slot none) (o'.add (σ slot) none))
    (item : α) :
    Action.Matched (Tree.construct slot item : Op key Unit) (Tree.construct (σ slot) item) t u (fun _ t₁ _ u₁ =>
      t₁.Continues t ∧ u₁.Continues u ∧ t₁.shape = t.shape ∧
      t₁.Coupled K σ u₁ entries (o.add slot (some item)) (o'.add (σ slot) (some item))) stopped := by
  obtain ⟨s, hs, hheld⟩ := h.left.store.construct item
  obtain ⟨s', hs', hheld'⟩ := h.right.store.construct item
  refine .step_ok (by rw [hs]; rfl) (by rw [hs']; rfl) ?_
  exact ⟨⟨rfl, rfl⟩, ⟨rfl, rfl⟩, rfl, h.withStore hheld hheld' (hK.constructed h.store hs hs')⟩

theorem giveBack (hK : Store.Linked K) (h : t.Coupled K σ u entries (o.add slot none) (o'.add (σ slot) none))
    (hfree : o.use slot = none) (hfree' : o'.use (σ slot) = none) :
    Action.Matched (Tree.giveBack slot : Op key Unit) (Tree.giveBack (σ slot)) t u (fun _ t₁ _ u₁ =>
      t₁.Continues t ∧ u₁.Continues u ∧ t₁.Coupled K σ u₁ entries o o') stopped := by
  obtain ⟨s, hs, hheld⟩ := h.left.store.deallocate hfree
  obtain ⟨s', hs', hheld'⟩ := h.right.store.deallocate hfree'
  refine .step_ok (by rw [hs]; rfl) (by rw [hs']; rfl) ?_
  exact ⟨⟨rfl, rfl⟩, ⟨rfl, rfl⟩, h.withStore hheld hheld' (hK.deallocated h.store hs hs')⟩

theorem release (hK : Store.Linked K)
    (h : t.Coupled K σ u entries (o.add slot (some item)) (o'.add (σ slot) (some item)))
    (hfree : o.use slot = none) (hfree' : o'.use (σ slot) = none) :
    Action.Matched (Tree.release slot : Op key α) (Tree.release (σ slot)) t u (fun x t₁ y u₁ => x = item ∧ y = item ∧
      t₁.Continues t ∧ u₁.Continues u ∧ t₁.Coupled K σ u₁ entries o o') stopped := by
  obtain ⟨s, hs, hheld⟩ := h.left.store.deallocate hfree
  obtain ⟨s', hs', hheld'⟩ := h.right.store.deallocate hfree'
  refine .step_ok (by rw [hs]; rfl) (by rw [hs']; rfl) ?_
  exact ⟨rfl, rfl, ⟨rfl, rfl⟩, ⟨rfl, rfl⟩, h.withStore hheld hheld' (hK.deallocated h.store hs hs')⟩

end Coupled

theorem Gap.rename {path : Path} (h : t.Coupled K σ u (before ++ after) o o') (hgap : t.Gap path before after) :
    u.Gap (path.rename σ) (before.map (Prod.map σ id)) (after.map (Prod.map σ id)) where
  fill := by
    rw [h.shape, ← hgap.fill, ← Path.fill_rename, Shape.rename_nil]
  before := by rw [Path.slotsBefore_rename, hgap.before, List.map_map, List.map_map]; rfl
  after := by rw [Path.slotsAfter_rename, hgap.after, List.map_map, List.map_map]; rfl

theorem Gap.place_rename {path : Path} (h : t.Represents (before ++ after) o) (hgap : t.Gap path before after)
    (hσ : Agree (before ++ after) σ σ₁) : path.place.rename σ₁ = path.place.rename σ := by
  cases path with
  | nil => rfl
  | cons f up =>
    have hslot : f.slot ∈ t.shape.slots := by
      rw [← hgap.fill, Path.slots_fill]
      cases hside : f.side <;> simp [Path.slotsBefore_cons, Path.slotsAfter_cons, hside]
    rw [h.slots] at hslot
    rw [Path.place, Place.rename, Place.rename, hσ f.slot hslot]

/-- Hanging a node leaves the comparator and the store as they are. -/
theorem attach_eq_ok {place : Place} (h : t.attach slot place = .ok t₁) :
    ∃ r, t.shape.attach slot place = .ok r ∧ t₁.shape = r.shape ∧ t₁.less = t.less ∧ t₁.store = t.store := by
  rw [Tree.attach, bind_eq_ok] at h
  obtain ⟨r, hr, ⟨⟩⟩ := h
  exact ⟨r, hr, rfl, rfl, rfl⟩

namespace Coupled

/-- Nodes that go with each other are hung into places that go with each
    other. -/
theorem hang {path : Path}
    (h : t.Coupled K σ u (before ++ after) (o.add slot (some item)) (o'.add (σ slot) (some item)))
    (hfree : o.use slot = none) (hfree' : o'.use (σ slot) = none) (hgap : t.Gap path before after) :
    Action.Matched (Tree.hang slot path.place : Op key Position) (Tree.hang (σ slot) (path.place.rename σ)) t u
      (fun x t₁ y u₁ => t₁.Continues t ∧ u₁.Continues u ∧ t₁.Pairs σ u₁ x y ∧
        t₁.Coupled K σ u₁ (before ++ (slot, item) :: after) o o') stopped := by
  obtain ⟨t₁, hrun, ht₁, hrep⟩ := h.left.attach hfree hgap
  have hright := h.right
  rw [List.map_append] at hright
  obtain ⟨u₁, hrun', hu₁, hrep'⟩ := hright.attach hfree' (hgap.rename h)
  rw [Path.place_rename] at hrun'
  obtain ⟨r, hr, hshape, hless, hstore⟩ := attach_eq_ok hrun
  obtain ⟨r', hr', hshape', hless', hstore'⟩ := attach_eq_ok hrun'
  rw [h.shape, Shape.attach_rename σ.injective, hr, except_map, Except.ok.injEq] at hr'
  have hdone : t₁.Coupled K σ u₁ (before ++ (slot, item) :: after) o o' := by
    constructor
    · exact hrep
    · simpa using hrep'
    · rw [hshape', hshape, ← hr']
      rfl
    · rw [hless', hless, h.less]
    · rw [hstore, hstore']
      exact h.store
  have hslot : slot ∈ t₁.shape.slots := by simp [hrep.slots]
  refine .step_ok (by rw [hrun]; rfl) (by rw [hrun']; rfl) ?_
  exact ⟨ht₁, hu₁, position_pairs (.some hslot), hdone⟩

/-- An item goes into places that go with each other, or into none. -/
theorem insertAt {below above : κ → Prop} {place : Place} (hK : Store.Linked K) (h : t.Coupled K σ u entries o o')
    (hroom : t.store.HasRoom ↔ u.store.HasRoom) (item : α) (hvacant : t.VacantBetween entries below above place) :
    Action.Matched (Tree.insertAt item place) (Tree.insertAt item (place.rename σ)) t u
      (fun x t₁ y u₁ => Reply.Mirrors t₁ u₁ (.equal x : Reply α ε) (.equal y) ∧ Follows K o o' t u t₁ u₁) stopped := by
  obtain ⟨path, before, after, rfl, hgap, rfl, _, _⟩ := hvacant
  refine .bind ((h.allocate hK hroom).mono ?_ fun _ _ hstopped => hstopped)
  rintro _ t₁ _ u₁ ⟨ht₁, hu₁, hshape₁, ⟨slot, σ₁, rfl, rfl, hσ, hfree, hfree', h₁⟩ | ⟨rfl, rfl, h₁⟩⟩
  · refine .bind ((h₁.construct hK item).mono ?_ fun _ _ hstopped => hstopped)
    rintro _ t₂ _ u₂ ⟨ht₂, hu₂, hshape₂, h₂⟩
    have hgap₂ : t₂.Gap path before after := ⟨by rw [hgap.fill, hshape₂, hshape₁], hgap.before, hgap.after⟩
    rw [← hgap.place_rename h.left hσ]
    refine .bind ((h₂.hang hfree hfree' hgap₂).mono ?_ fun _ _ hstopped => hstopped)
    rintro x t₃ y u₃ ⟨ht₃, hu₃, hxy, h₃⟩
    exact .pure ⟨h₃.mirrors_at (f := fun p => .equal (.ok p)) hxy (fun _ => rfl) fun _ _ => rfl,
      (ht₃.trans ht₂).trans ht₁, (hu₃.trans hu₂).trans hu₁, σ₁, _, h₃⟩
  · exact .pure ⟨.plain rfl rfl, ht₁, hu₁, σ, _, h₁⟩

end Coupled

/-- Two searches that come to the same of any two trees of the given entries, up
    to the names of the slots. -/
def SearchesAlike (K : Equiv.Perm Slot → Store α → Store α → Prop) (σ : Equiv.Perm Slot) (entries : List (Slot × α))
    (rename : (Slot → Slot) → ρ → ρ) (search search' : Tree key → κ → Query κ ρ) : Prop :=
  ∀ {σ₁ t u o o'}, Agree entries σ σ₁ → t.Coupled K σ₁ u entries o o' → ∀ k,
    Query.Matched (fun x y => y = rename σ₁ x) (search t k) (search' u k)

section Searches

variable (K) (σ) (entries)

theorem searchesAlike_unique :
    SearchesAlike K σ entries Vacancy.rename (fun (t : Tree key) k => t.uniquePlace k) fun t k => t.uniquePlace k :=
  fun _ h k => h.uniquePlace k

theorem searchesAlike_equal (bound : Bound) :
    SearchesAlike K σ entries Place.rename (fun (t : Tree key) k => t.equalPlace bound k)
      fun t k => t.equalPlace bound k :=
  fun _ h k => h.equalPlace bound k

end Searches

/-- Corresponding slots of one pair of trees correspond in every pair of trees
    of the same entries. -/
theorem Coupled.corresponds {a b : Option Slot} {t' u' : Tree key} {p p' : Outside α}
    (h : t.Coupled K σ u entries o o') (hab : t.Corresponds σ a b) (hσ : Agree entries σ σ₁)
    (h' : t'.Coupled K σ₁ u' entries p p') : t'.Corresponds σ₁ a b := by
  obtain ⟨rfl, hmem⟩ := hab
  rw [h.left.slots] at hmem
  refine ⟨Option.map_congr fun slot hslot => (hσ slot (hmem slot hslot)).symm, ?_⟩
  rwa [h'.left.slots]

section Hinted

variable {a b : Option Slot} (h : t.Coupled K σ u entries o o') (hab : t.Corresponds σ a b)
include h hab

theorem searchesAlike_hintedUnique :
    SearchesAlike K σ entries Vacancy.rename (fun (t : Tree key) k => t.hintedUniquePlace a k)
      fun t k => t.hintedUniquePlace b k :=
  fun hσ h' k => h'.hintedUniquePlace (h.corresponds hab hσ h') k

theorem searchesAlike_hintedEqual :
    SearchesAlike K σ entries Place.rename (fun (t : Tree key) k => t.hintedEqualPlace a k)
      fun t k => t.hintedEqualPlace b k :=
  fun hσ h' k => h'.hintedEqualPlace (h.corresponds hab hσ h') k

end Hinted

namespace Coupled

section By

variable (hK : Store.Linked K) (h : t.Coupled K σ u entries o o') (hroom : t.store.HasRoom ↔ u.store.HasRoom)
include hK h hroom

theorem insertUniqueBy {search search' : Tree key → κ → Query κ Vacancy} (item : α)
    (hfinds : FindsUnique entries search) (halike : SearchesAlike K σ entries Vacancy.rename search search') :
    Action.Matched (Tree.insertUniqueBy search item) (Tree.insertUniqueBy search' item) t u
      (fun x t₁ y u₁ => Reply.Mirrors t₁ u₁ (.unique x : Reply α ε) (.unique y) ∧ Follows K o o' t u t₁ u₁)
      stopped := by
  obtain ⟨v, hv, hspot⟩ := hfinds h.left (key item)
  refine .bind (.ask_ok (halike (fun _ _ => rfl) h (key item)) hv ?_)
  rintro _ rfl
  cases hspot with
  | vacant hvacant =>
    refine .bind ((h.insertAt (ε := ε) hK hroom item hvacant).mono ?_ fun _ _ hstopped => hstopped)
    rintro x t₁ y u₁ ⟨hxy, hfollows⟩
    exact .pure ⟨hxy.unique, hfollows⟩
  | @occupied slot other hmem _ _ =>
    have hslot : slot ∈ t.shape.slots := by
      rw [h.left.slots]
      exact List.mem_map_of_mem hmem
    refine .bind (.look_ok rfl rfl (.pure ⟨?_, h.follows⟩))
    exact h.mirrors_at (f := fun p => .unique (.ok (p, false))) (position_pairs (.some hslot)) (fun _ => rfl)
      fun _ _ => rfl

theorem insertEqualBy {search search' : Tree key → κ → Query κ Place} (item : α)
    (hfinds : FindsEqual entries search) (halike : SearchesAlike K σ entries Place.rename search search') :
    Action.Matched (Tree.insertEqualBy search item) (Tree.insertEqualBy search' item) t u
      (fun x t₁ y u₁ => Reply.Mirrors t₁ u₁ (.equal x : Reply α ε) (.equal y) ∧ Follows K o o' t u t₁ u₁) stopped := by
  obtain ⟨place, hplace, hspot⟩ := hfinds h.left (key item)
  refine .bind (.ask_ok (halike (fun _ _ => rfl) h (key item)) hplace ?_)
  rintro _ rfl
  exact h.insertAt hK hroom item hspot

/-- Both trees build their node, or neither does, for the same reason. -/
theorem buildNode (build : Unit → Except ε α) :
    Action.Matched (Tree.buildNode build : Op key _) (Tree.buildNode build) t u (fun x t₁ y u₁ =>
      t₁.Continues t ∧ u₁.Continues u ∧
      ((∃ calls failure σ₁, x = ⟨calls, .error failure⟩ ∧ y = ⟨calls, .error failure⟩ ∧
          t₁.Coupled K σ₁ u₁ entries o o') ∨
        ∃ calls slot item σ₁, x = ⟨calls, .ok (slot, item)⟩ ∧ y = ⟨calls, .ok (σ₁ slot, item)⟩ ∧
          Agree entries σ σ₁ ∧ o.use slot = none ∧ o'.use (σ₁ slot) = none ∧
          t₁.Coupled K σ₁ u₁ entries (o.add slot (some item)) (o'.add (σ₁ slot) (some item)))) stopped := by
  refine .bind ((h.allocate hK hroom).mono ?_ fun _ _ hstopped => hstopped)
  rintro _ t₁ _ u₁ ⟨ht₁, hu₁, _, ⟨slot, σ₁, rfl, rfl, hσ, hfree, hfree', h₁⟩ | ⟨rfl, rfl, h₁⟩⟩
  · dsimp only
    obtain ⟨calls, result⟩ := Built.call build 0
    cases result with
    | error failure =>
      refine .bind ((h₁.giveBack hK hfree hfree').mono ?_ fun _ _ hstopped => hstopped)
      rintro _ t₂ _ u₂ ⟨ht₂, hu₂, h₂⟩
      exact .pure ⟨ht₂.trans ht₁, hu₂.trans hu₁, .inl ⟨_, _, σ₁, rfl, rfl, h₂⟩⟩
    | ok item =>
      refine .bind ((h₁.construct hK item).mono ?_ fun _ _ hstopped => hstopped)
      rintro _ t₂ _ u₂ ⟨ht₂, hu₂, _, h₂⟩
      exact .pure ⟨ht₂.trans ht₁, hu₂.trans hu₁, .inr ⟨_, slot, item, σ₁, rfl, rfl, hσ, hfree, hfree', h₂⟩⟩
  · exact .pure ⟨ht₁, hu₁, .inl ⟨_, _, σ, rfl, rfl, h₁⟩⟩

theorem insertUniqueWithBy {search search' : Tree key → κ → Query κ Vacancy} (build : Unit → Except ε α)
    (hfinds : FindsUnique entries search) (halike : SearchesAlike K σ entries Vacancy.rename search search') :
    Action.Matched (Tree.insertUniqueWithBy search build) (Tree.insertUniqueWithBy search' build) t u
      (fun x t₁ y u₁ => Reply.Mirrors t₁ u₁ (.uniqueWith x : Reply α ε) (.uniqueWith y) ∧ Follows K o o' t u t₁ u₁)
      stopped := by
  refine .bind ((h.buildNode hK hroom build).mono ?_ fun _ _ hstopped => hstopped)
  rintro _ t₁ _ u₁ ⟨ht₁, hu₁, ⟨calls, failure, σ₁, rfl, rfl, h₁⟩ |
    ⟨calls, slot, item, σ₁, rfl, rfl, hσ, hfree, hfree', h₁⟩⟩
  · exact .pure ⟨.plain rfl rfl, ht₁, hu₁, σ₁, _, h₁⟩
  · obtain ⟨v, hv, hspot⟩ := hfinds h₁.left (key item)
    refine .bind (.ask_ok (halike hσ h₁ (key item)) hv ?_)
    rintro _ rfl
    cases hspot with
    | vacant hvacant =>
      obtain ⟨path, before, after, rfl, hgap, rfl, _, _⟩ := hvacant
      refine .bind ((h₁.hang hfree hfree' hgap).mono ?_ fun _ _ hstopped => hstopped)
      rintro x t₂ y u₂ ⟨ht₂, hu₂, hxy, h₂⟩
      refine .pure ⟨?_, ht₂.trans ht₁, hu₂.trans hu₁, σ₁, _, h₂⟩
      exact h₂.mirrors_at (f := fun p => .uniqueWith ⟨calls, .ok (p, true)⟩) hxy (fun _ => rfl) fun _ _ => rfl
    | @occupied other _ hmem _ _ =>
      refine .bind ((h₁.release hK hfree hfree').mono ?_ fun _ _ hstopped => hstopped)
      rintro _ t₂ _ u₂ ⟨_, _, ht₂, hu₂, h₂⟩
      have hslot : other ∈ t₂.shape.slots := by
        rw [h₂.left.slots]
        exact List.mem_map_of_mem hmem
      refine .bind (.look_ok rfl rfl (.pure ⟨?_, ht₂.trans ht₁, hu₂.trans hu₁, σ₁, _, h₂⟩))
      exact h₂.mirrors_at (f := fun p => .uniqueWith ⟨calls, .ok (p, false)⟩) (position_pairs (.some hslot))
        (fun _ => rfl) fun _ _ => rfl

theorem insertEqualWithBy {search search' : Tree key → κ → Query κ Place} (build : Unit → Except ε α)
    (hfinds : FindsEqual entries search) (halike : SearchesAlike K σ entries Place.rename search search') :
    Action.Matched (Tree.insertEqualWithBy search build) (Tree.insertEqualWithBy search' build) t u
      (fun x t₁ y u₁ => Reply.Mirrors t₁ u₁ (.equalWith x : Reply α ε) (.equalWith y) ∧ Follows K o o' t u t₁ u₁)
      stopped := by
  refine .bind ((h.buildNode hK hroom build).mono ?_ fun _ _ hstopped => hstopped)
  rintro _ t₁ _ u₁ ⟨ht₁, hu₁, ⟨calls, failure, σ₁, rfl, rfl, h₁⟩ |
    ⟨calls, slot, item, σ₁, rfl, rfl, hσ, hfree, hfree', h₁⟩⟩
  · exact .pure ⟨.plain rfl rfl, ht₁, hu₁, σ₁, _, h₁⟩
  · obtain ⟨place, hplace, path, before, after, rfl, hgap, rfl, _, _⟩ := hfinds h₁.left (key item)
    refine .bind (.ask_ok (halike hσ h₁ (key item)) hplace ?_)
    rintro _ rfl
    refine .bind ((h₁.hang hfree hfree' hgap).mono ?_ fun _ _ hstopped => hstopped)
    rintro x t₂ y u₂ ⟨ht₂, hu₂, hxy, h₂⟩
    refine .pure ⟨?_, ht₂.trans ht₁, hu₂.trans hu₁, σ₁, _, h₂⟩
    exact h₂.mirrors_at (f := fun p => .equalWith ⟨calls, .ok p⟩) hxy (fun _ => rfl) fun _ _ => rfl

end By

end Coupled

end Tree

end RedBlack
