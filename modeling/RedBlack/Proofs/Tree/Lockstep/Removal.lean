import RedBlack.Proofs.Tree.Lockstep.Insertion
import RedBlack.Proofs.Tree.Removal

namespace RedBlack

variable {α κ ε : Type} {key : α → κ} {K : Equiv.Perm Slot → Store α → Store α → Prop} {σ : Equiv.Perm Slot}

/-- Releasing all slots of two shapes that go with each other keeps what is
    known of the stores. -/
theorem Store.Linked.releaseAll (hK : Store.Linked K) {shape : Shape} {s s' s₁ s₁' : Store α} (h : K σ s s')
    (hrun : shape.releaseAll s = .ok s₁) (hrun' : (shape.rename σ).releaseAll s' = .ok s₁') : K σ s₁ s₁' := by
  induction shape generalizing s s' s₁ s₁' with
  | nil =>
    cases hrun
    cases hrun'
    exact h
  | node color left slot right ihl ihr =>
    rw [Shape.rename_node] at hrun'
    simp only [Shape.releaseAll, bind_eq_ok] at hrun hrun'
    obtain ⟨r, hright, ⟨content, m⟩, hslot, hrun⟩ := hrun
    obtain ⟨r', hright', ⟨content', m'⟩, hslot', hrun'⟩ := hrun'
    cases content with
    | none => cases hrun
    | some item =>
      cases content' with
      | none => cases hrun'
      | some item' => exact ihl (hK.deallocated (ihr h hright hright') hslot hslot') hrun hrun'

namespace Tree

variable {t u t₁ u₁ : Tree key} {entries before after : List (Slot × α)} {o o' : Outside α} {slot : Slot} {item : α}
  {p p' q q' : Position} {stopped : Tree key → Tree key → Prop}

/-- Unlinking a node leaves the comparator and the store as they are. -/
theorem detach_eq_ok (h : t.detach slot = .ok t₁) :
    ∃ r, t.shape.unlink slot = .ok r ∧ t₁.shape = r.shape ∧ t₁.less = t.less ∧ t₁.store = t.store := by
  rw [Tree.detach, bind_eq_ok] at h
  obtain ⟨r, hr, ⟨⟩⟩ := h
  exact ⟨r, hr, rfl, rfl, rfl⟩

namespace Coupled

/-- Operations go on with the slots of the positions that they are given. -/
theorem owned_bind {ρ ρ' : Type} {next : Option Slot → Op key ρ} {next' : Option Slot → Op key ρ'}
    {done : ρ → Tree key → ρ' → Tree key → Prop} (hpq : t.Pairs σ u p q)
    (hnext : Action.Matched (next p.slot) (next' q.slot) t u done stopped) :
    Action.Matched (do next (← owned p)) (do next' (← owned q)) t u done stopped :=
  .bind (.look_ok (if_pos hpq.1) (if_pos hpq.2.1) hnext)

theorem eraseSlot (hK : Store.Linked K) (h : t.Coupled K σ u (before ++ (slot, item) :: after) o o') :
    Action.Matched (Tree.eraseSlot slot : Op key α) (Tree.eraseSlot (σ slot)) t u
      (fun x t₁ y u₁ => x = item ∧ y = item ∧ t₁.Continues t ∧ u₁.Continues u ∧
        t₁.Coupled K σ u₁ (before ++ after) o o') stopped := by
  obtain ⟨t₁, hrun, ht₁, hsize, hfree, hrep⟩ := h.left.detach
  have hright : u.Represents (before.map (Prod.map σ id) ++ (σ slot, item) :: after.map (Prod.map σ id)) o' := by
    simpa using h.right
  obtain ⟨u₁, hrun', hu₁, hsize', hfree', hrep'⟩ := hright.detach
  obtain ⟨r, hr, hshape, hless, hstore⟩ := detach_eq_ok hrun
  obtain ⟨r', hr', hshape', hless', hstore'⟩ := detach_eq_ok hrun'
  rw [h.shape, Shape.unlink_rename σ.injective, hr, except_map, Except.ok.injEq] at hr'
  have hpos : 1 ≤ t.size := by
    simp only [h.left.size, List.length_append, List.length_cons]
    omega
  have hdone : ({ t₁ with size := t₁.size - 1 } : Tree key).Coupled K σ { u₁ with size := u₁.size - 1 }
      (before ++ after) (o.add slot (some item)) (o'.add (σ slot) (some item)) := by
    constructor
    · exact hrep
    · simpa using hrep'
    · simp only [hshape', hshape, ← hr']
      rfl
    · simp only [hless', hless, h.less]
    · simp only [hstore, hstore']
      exact h.store
  refine .bind (.step_ok (by rw [hrun, ok_bind, hsize, checkedSub, if_pos hpos]; rfl)
    (by rw [hrun', ok_bind, hsize', h.size, checkedSub, if_pos hpos]; rfl) ?_)
  rw [hsize] at hdone
  rw [hsize', h.size] at hdone
  refine (hdone.release hK hfree hfree').mono ?_ fun _ _ hstopped => hstopped
  rintro x t₂ y u₂ ⟨rfl, rfl, ht₂, hu₂, h₂⟩
  exact ⟨rfl, rfl, ⟨ht₂.less.trans ht₁.less, ht₂.tag.trans ht₁.tag⟩,
    ⟨hu₂.less.trans hu₁.less, hu₂.tag.trans hu₁.tag⟩, h₂⟩

/-- What comes after a node and its counterpart goes with each other. -/
theorem successors (h : t.Coupled K σ u (before ++ (slot, item) :: after) o o') :
    t.successor (some slot) = .ok (after.head?.map Prod.fst) ∧
      u.successor (some (σ slot)) = .ok ((after.head?.map Prod.fst).map σ) := by
  have hright : u.Represents (before.map (Prod.map σ id) ++ (σ slot, item) :: after.map (Prod.map σ id)) o' := by
    simpa using h.right
  refine ⟨h.left.successor, hright.successor.trans ?_⟩
  simp [Option.map_map, Function.comp_def]

theorem corresponds_head (h : t.Coupled K σ u (before ++ after) o o') :
    t.Corresponds σ (after.head?.map Prod.fst) ((after.head?.map Prod.fst).map σ) := by
  refine ⟨rfl, fun slot hslot => ?_⟩
  obtain ⟨e, he, rfl⟩ := Option.map_eq_some_iff.mp hslot
  rw [h.left.slots]
  exact List.mem_map_of_mem (List.mem_append_right _ (List.mem_of_mem_head? he))

theorem erase (hK : Store.Linked K) (h : t.Coupled K σ u entries o o') (hpq : t.Pairs σ u p q) :
    Action.Matched (Tree.erase p : Op key _) (Tree.erase q) t u
      (fun x t₁ y u₁ => Reply.Mirrors t₁ u₁ (.erased x.1 x.2 : Reply α ε) (.erased y.1 y.2) ∧
        Follows K o o' t u t₁ u₁) (Follows K o o' t u) := by
  refine owned_bind hpq ?_
  obtain ⟨_, _, hq, hmem⟩ := hpq
  rw [hq]
  cases hp : p.slot with
  | none => exact .fail h.follows
  | some slot =>
    obtain ⟨before, item, after, rfl⟩ := h.left.exists_entry (hmem slot hp)
    obtain ⟨hnext, hnext'⟩ := h.successors
    refine .bind (.look_ok (s := t) (t := u) hnext hnext' ?_)
    refine .bind ((h.eraseSlot hK).mono ?_ fun _ _ hstopped => hstopped)
    rintro _ t₁ _ u₁ ⟨rfl, rfl, ht₁, hu₁, h₁⟩
    refine .bind (.look_ok rfl rfl (.pure ⟨?_, ht₁, hu₁, σ, _, h₁⟩))
    exact h₁.mirrors_at (f := .erased _) (position_pairs h₁.corresponds_head) (fun _ => rfl) fun _ _ => rfl

theorem remove (hK : Store.Linked K) (h : t.Coupled K σ u entries o o') (hpq : t.Pairs σ u p q) :
    Action.Matched (Tree.remove p : Op key α) (Tree.remove q) t u
      (fun x t₁ y u₁ => y = x ∧ Follows K o o' t u t₁ u₁) (Follows K o o' t u) := by
  refine .bind ((h.erase (ε := Empty) hK hpq).mono ?_ fun _ _ hstopped => hstopped)
  rintro x t₁ y u₁ ⟨⟨_, hxy⟩, hfollows⟩
  exact .pure ⟨(Reply.erased.inj hxy).1, hfollows⟩

/-- Both trees are torn down, and the log says the same of them. -/
theorem clear (hK : Store.Linked K) (h : t.Coupled K σ u entries o o') :
    Action.Matched (Tree.clear : Op key Unit) Tree.clear t u
      (fun _ t₁ _ u₁ => t₁.Continues t ∧ u₁.Continues u ∧ t₁.Coupled K σ u₁ [] o o') stopped := by
  obtain ⟨s, hrun, hheld⟩ := h.left.dispose
  obtain ⟨s', hrun', hheld'⟩ := h.right.dispose
  rw [Tree.dispose] at hrun hrun'
  have hstore : K σ s s' := by
    rw [h.shape] at hrun'
    exact hK.releaseAll h.store hrun hrun'
  have hteardown : Action.Matched (.step fun t => do
      let store ← t.shape.releaseAll t.store
      return ((), { t with shape := .nil, leftmost := none, rightmost := none, size := 0, store }) : Op key Unit)
      (.step fun t => do
        let store ← t.shape.releaseAll t.store
        return ((), { t with shape := .nil, leftmost := none, rightmost := none, size := 0, store }) : Op key Unit) t u
      (fun _ t₁ _ u₁ => t₁.Continues t ∧ u₁.Continues u ∧ t₁.Coupled K σ u₁ [] o o') stopped := by
    refine .step_ok (by rw [hrun]; rfl) (by rw [hrun']; rfl) ?_
    exact ⟨⟨rfl, rfl⟩, ⟨rfl, rfl⟩, represents_empty hheld, represents_empty hheld', rfl, h.less, hstore⟩
  refine .bind (.look_ok rfl (congrArg Except.ok h.size) ?_)
  split
  · exact .bind (.note hteardown)
  · exact hteardown

/-- Erasing from corresponding slots on comes to the same end, however the range
    lies. Every step takes one entry away, so the fuel outlasts the entries; the
    last slot need not be met on the way. -/
theorem eraseUpTo (hK : Store.Linked K) {fuel : Nat} {last last' a b : Option Slot}
    (h : t.Coupled K σ u entries o o') (hlast : last' = last.map σ) (hab : t.Corresponds σ a b)
    (hfuel : entries.length < fuel) :
    Action.Matched (Tree.eraseUpTo last fuel a : Op key Unit) (Tree.eraseUpTo last' fuel b) t u
      (fun _ t₁ _ u₁ => t₁.Continues t ∧ u₁.Continues u ∧
        ∃ rest, t₁.Coupled K σ u₁ rest o o' ∧ t₁.Corresponds σ last last') (Follows K o o' t u) := by
  subst hlast
  induction fuel generalizing t u entries a b with
  | zero => omega
  | succ fuel ih =>
    obtain ⟨rfl, hmem⟩ := hab
    cases a with
    | none =>
      cases last with
      | none => exact .pure ⟨.refl t, .refl u, entries, h, .none⟩
      | some slot => exact .fail h.follows
    | some slot =>
      have hend : last.map σ = some (σ slot) ↔ last = some slot := by
        rw [← Option.map_some, map_eq_iff]
      simp only [Option.map_some, Tree.eraseUpTo, hend]
      split
      · next heq =>
        subst heq
        exact .pure ⟨.refl t, .refl u, entries, h, .some (hmem slot rfl)⟩
      · obtain ⟨before, item, after, rfl⟩ := h.left.exists_entry (hmem slot rfl)
        obtain ⟨hnext, hnext'⟩ := h.successors
        refine .bind (.look_ok (s := t) (t := u) hnext hnext' ?_)
        refine .bind ((h.eraseSlot hK).mono ?_ fun _ _ hstopped => hstopped)
        rintro _ t₁ _ u₁ ⟨_, _, ht₁, hu₁, h₁⟩
        have hrest : (before ++ after).length < fuel := by
          simp only [List.length_append, List.length_cons] at hfuel ⊢
          omega
        refine (ih h₁ h₁.corresponds_head hrest).mono ?_ ?_
        · rintro _ t₂ _ u₂ ⟨ht₂, hu₂, rest, h₂, hlast⟩
          exact ⟨ht₂.trans ht₁, hu₂.trans hu₁, rest, h₂, hlast⟩
        · rintro t₂ u₂ ⟨ht₂, hu₂, hleft⟩
          exact ⟨ht₂.trans ht₁, hu₂.trans hu₁, hleft⟩

theorem eraseRange (hK : Store.Linked K) (h : t.Coupled K σ u entries o o') (hp : t.Pairs σ u p p')
    (hq : t.Pairs σ u q q') :
    Action.Matched (Tree.eraseRange p q : Op key _) (Tree.eraseRange p' q') t u
      (fun x t₁ y u₁ => Reply.Mirrors t₁ u₁ (.position x : Reply α ε) (.position y) ∧ Follows K o o' t u t₁ u₁)
      (Follows K o o' t u) := by
  refine owned_bind hp (owned_bind hq ?_)
  refine .bind (.look_ok rfl rfl ?_)
  obtain ⟨_, _, hlower⟩ := hp
  obtain ⟨htag, htag', hupper⟩ := hq
  have hall : p'.slot = u.leftmost ∧ q'.slot = none ↔ p.slot = t.leftmost ∧ q.slot = none := by
    rw [hlower.1, hupper.1, h.leftmost.1, map_eq_iff, Option.map_eq_none_iff]
  simp only [hall]
  split
  · refine .bind ((h.clear hK).mono ?_ fun _ _ hstopped => hstopped)
    rintro _ t₁ _ u₁ ⟨ht₁, hu₁, h₁⟩
    refine .look_ok rfl rfl ⟨?_, ht₁, hu₁, σ, _, h₁⟩
    exact h₁.mirrors_at (position_pairs .none) (fun _ => rfl) fun _ _ => rfl
  · have hfuel : entries.length < t.size + 1 := by
      rw [h.left.size]
      omega
    rw [h.size]
    refine .bind ((h.eraseUpTo hK hupper.1 hlower hfuel).mono ?_ fun _ _ hstopped => hstopped)
    rintro _ t₁ _ u₁ ⟨ht₁, hu₁, rest, h₁, hlast⟩
    have hpairs : t₁.Pairs σ u₁ q q' := ⟨htag.trans ht₁.tag.symm, htag'.trans hu₁.tag.symm, hlast⟩
    exact .pure ⟨h₁.mirrors_at hpairs (fun _ => rfl) fun _ _ => rfl, ht₁, hu₁, σ, rest, h₁⟩

theorem eraseKey (hK : Store.Linked K) (h : t.Coupled K σ u entries o o') (k : κ) :
    Action.Matched (Tree.eraseKey k : Op key Nat) (Tree.eraseKey k) t u
      (fun x t₁ y u₁ => y = x ∧ Follows K o o' t u t₁ u₁) (Follows K o o' t u) := by
  refine .bind (.ask ((h.equalRange k).mono ?_) h.follows)
  rintro ⟨first, last⟩ ⟨first', last'⟩ ⟨hfirst, hlast⟩
  refine .bind (.look_ok rfl (congrArg Except.ok h.size) ?_)
  refine .bind ((h.eraseRange (ε := Empty) hK hfirst hlast).mono ?_ fun _ _ hstopped => hstopped)
  rintro _ t₁ _ u₁ ⟨_, hfollows⟩
  obtain ⟨ht₁, hu₁, σ₁, rest, h₁⟩ := hfollows
  refine .look ?_ ⟨ht₁, hu₁, σ₁, rest, h₁⟩
  rw [h₁.size]
  refine (Matched.of_eq rfl).mono ?_
  rintro n _ rfl
  exact ⟨rfl, ht₁, hu₁, σ₁, rest, h₁⟩

theorem popSlot (hK : Store.Linked K) (h : t.Coupled K σ u entries o o') (hslot : slot ∈ t.shape.slots) :
    Action.Matched (do return some (← Tree.eraseSlot slot) : Op key (Option α))
      (do return some (← Tree.eraseSlot (σ slot))) t u (fun x t₁ y u₁ => y = x ∧ Follows K o o' t u t₁ u₁)
      stopped := by
  obtain ⟨before, item, after, rfl⟩ := h.left.exists_entry hslot
  refine .bind ((h.eraseSlot hK).mono ?_ fun _ _ hstopped => hstopped)
  rintro _ t₁ _ u₁ ⟨rfl, rfl, ht₁, hu₁, h₁⟩
  exact .pure ⟨rfl, ht₁, hu₁, σ, _, h₁⟩

theorem popFirst (hK : Store.Linked K) (h : t.Coupled K σ u entries o o') :
    Action.Matched (Tree.popFirst : Op key (Option α)) Tree.popFirst t u
      (fun x t₁ y u₁ => y = x ∧ Follows K o o' t u t₁ u₁) (Follows K o o' t u) := by
  refine .bind (.look_ok rfl rfl ?_)
  rw [h.isEmpty]
  split
  · exact .pure ⟨rfl, h.follows⟩
  · refine .bind (.look (h.leftmost.dereference.mono ?_) h.follows)
    rintro first _ ⟨rfl, hfirst⟩
    exact h.popSlot hK hfirst

theorem popLast (hK : Store.Linked K) (h : t.Coupled K σ u entries o o') :
    Action.Matched (Tree.popLast : Op key (Option α)) Tree.popLast t u
      (fun x t₁ y u₁ => y = x ∧ Follows K o o' t u t₁ u₁) (Follows K o o' t u) := by
  refine .bind (.look_ok rfl rfl ?_)
  rw [h.isEmpty]
  split
  · exact .pure ⟨rfl, h.follows⟩
  · refine .bind (.look (h.rightmost.dereference.mono ?_) h.follows)
    rintro last _ ⟨rfl, hlast⟩
    exact h.popSlot hK hlast

end Coupled

end Tree

end RedBlack
