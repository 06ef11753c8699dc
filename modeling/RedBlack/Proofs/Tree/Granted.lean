import RedBlack.Proofs.Tree.Indices

namespace RedBlack

namespace Tree

open RedBlack.Action

variable {α κ ε ρ : Type} {key : α → κ} {t : Tree key} {entries before after : List (Slot × α)} {o : Outside α}
  {slot : Slot} {item : α} {p : Path} {store : Store α} {a : Op key ρ} {reply : Position → ρ} {e : Slot × α}

/-- The operation puts one more entry into the order, at the index given, and
    answers with its position. All other entries stay in their slots and in
    their order. With the slot and the two neighbours known, the outcome is
    known as a whole. -/
structure PutsAt (t : Tree key) (a : Op key ρ) (reply : Position → ρ) (entries : List (Slot × α)) (i : Nat)
    (e : Slot × α) : Prop where
  answer : (a.run t).answer = .ok (reply ((a.run t).state.nth i))
  continues : (a.run t).state.Continues t
  listing : (a.run t).state.listing = .ok (entries.insertIdx i e)
  sorted : Sorted t.less key (entries.insertIdx i e)

theorem putsAt_of_yields (hrun : a.Yields t fun answer u => answer = reply (t.position (some e.1)) ∧
      u.Continues t ∧ u.Represents (before ++ e :: after) o)
    (hsorted : Sorted t.less key (before ++ e :: after)) : t.PutsAt a reply (before ++ after) before.length e := by
  obtain ⟨_, hanswer, rfl, hu, hrep⟩ := hrun.answer
  refine ⟨?_, hu, ?_, ?_⟩
  · rw [hanswer, hrep.nth_length, hu.position]
    rfl
  · rw [hrep.listing, insertIdx_length]
  · rwa [insertIdx_length]

/-- A search that ends between two parts of the entries, in every later state of
    the tree that has these entries. -/
def FindsBetween (t : Tree key) (k : κ) (before after : List (Slot × α)) (search : Tree key → κ → Query κ Place) :
    Prop :=
  ∀ {u o}, u.Continues t → u.Represents (before ++ after) o →
    ∃ p, u.Gap p before after ∧ (search u k).answer = .ok p.place

namespace Represents

variable (halloc : t.store.allocate = .ok (.ok slot, store))
include halloc

theorem allocate_granted (h : t.Represents entries o) :
    (Tree.allocate : Op key (Except AllocError Slot)).Yields t fun answer u => answer = .ok slot ∧ u.Continues t ∧
      u.shape = t.shape ∧ o.use slot = none ∧ u.Represents entries (o.add slot none) := by
  obtain ⟨given, new, hrun, _, hfree, hstore⟩ | ⟨new, hrun, _⟩ := h.store.allocate
  · rw [halloc] at hrun
    obtain ⟨rfl, rfl⟩ : slot = given ∧ store = new := by simpa using hrun
    rw [Tree.allocate, Yields, wp_step_ok (by rw [halloc]; rfl)]
    exact ⟨rfl, ⟨rfl, rfl⟩, rfl, hfree, h.withStore hstore⟩
  · rw [halloc] at hrun
    cases hrun

theorem insertAt_granted (h : t.Represents (before ++ after) o) (hgap : t.Gap p before after) (item : α) :
    (Tree.insertAt item p.place).Yields t fun answer u =>
      answer = .ok (t.position (some slot)) ∧ u.Continues t ∧ u.Represents (before ++ (slot, item) :: after) o := by
  rw [Tree.insertAt, Yields, wp_bind]
  refine (h.allocate_granted halloc).mono ?_
  rintro _ t₁ ⟨rfl, ht₁, hshape₁, hfree, h₁⟩
  have hgap₁ : t₁.Gap p before after := ⟨by rw [hgap.fill, hshape₁], hgap.before, hgap.after⟩
  refine (h₁.fill hfree hgap₁ item).mono ?_
  rintro _ u ⟨rfl, hu, hrep⟩
  rw [ht₁.position]
  exact ⟨rfl, hu.trans ht₁, hrep⟩

theorem insertUniqueBy_granted {search : Tree key → κ → Query κ Vacancy} (h : t.Represents (before ++ after) o)
    (hgap : t.Gap p before after) (hsearch : (search t (key item)).answer = .ok (.vacant p.place)) :
    (Tree.insertUniqueBy search item).Yields t fun answer u =>
      answer = .ok (t.position (some slot), true) ∧ u.Continues t ∧
        u.Represents (before ++ (slot, item) :: after) o := by
  rw [Tree.insertUniqueBy, Yields, wp_bind, wp_ask_ok (s := t) hsearch]
  simp only [wp_bind]
  refine (h.insertAt_granted halloc hgap item).mono ?_
  rintro _ u ⟨rfl, hu, hrep⟩
  exact ⟨rfl, hu, hrep⟩

theorem insertEqualBy_granted {search : Tree key → κ → Query κ Place} (h : t.Represents (before ++ after) o)
    (hsearch : t.FindsBetween (key item) before after search) :
    (Tree.insertEqualBy search item).Yields t fun answer u =>
      answer = .ok (t.position (some slot)) ∧ u.Continues t ∧ u.Represents (before ++ (slot, item) :: after) o := by
  obtain ⟨p, hgap, hplace⟩ := hsearch (.refl t) h
  rw [Tree.insertEqualBy, Yields, wp_bind, wp_ask_ok (s := t) hplace]
  exact h.insertAt_granted halloc hgap item

variable {build : Unit → Except ε α} (hbuild : build () = .ok item)
include hbuild

theorem buildNode_granted (h : t.Represents entries o) :
    (Tree.buildNode build : Op key _).Yields t fun b u => b = { calls := 1, result := .ok (slot, item) } ∧
      u.Continues t ∧ o.use slot = none ∧ u.Represents entries (o.add slot (some item)) := by
  rw [Tree.buildNode, Yields, wp_bind]
  refine (h.allocate_granted halloc).mono ?_
  rintro _ t₁ ⟨rfl, ht₁, _, hfree, h₁⟩
  simp only [Built.call_of_ok hbuild, wp_bind]
  refine (h₁.construct item).mono ?_
  rintro _ u ⟨hu, _, hrep⟩
  exact ⟨rfl, hu.trans ht₁, hfree, hrep⟩

theorem insertEqualWithBy_granted {search : Tree key → κ → Query κ Place} (h : t.Represents (before ++ after) o)
    (hsearch : t.FindsBetween (key item) before after search) :
    (Tree.insertEqualWithBy search build).Yields t fun b u =>
      b = { calls := 1, result := .ok (t.position (some slot)) } ∧ u.Continues t ∧
        u.Represents (before ++ (slot, item) :: after) o := by
  rw [Tree.insertEqualWithBy, Yields, wp_bind]
  refine (h.buildNode_granted halloc hbuild).mono ?_
  rintro _ t₁ ⟨rfl, ht₁, hfree, h₁⟩
  obtain ⟨p, hgap, hplace⟩ := hsearch ht₁ h₁
  simp only [wp_bind]
  rw [wp_ask_ok (s := t₁) hplace, wp_bind]
  refine (h₁.hang hfree hgap).mono ?_
  rintro _ u ⟨rfl, hu, hrep⟩
  rw [ht₁.position]
  exact ⟨rfl, hu.trans ht₁, hrep⟩

end Represents

end Tree

end RedBlack
