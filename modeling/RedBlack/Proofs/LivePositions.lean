import RedBlack.Proofs.Forest
import RedBlack.Proofs.Tree.Requests

namespace RedBlack

namespace Tree

open RedBlack.Action

variable {α κ ε : Type} {key : α → κ} {t : Tree key} {entries : List (Slot × α)} {o : Outside α} {p : Position}

/-- Every position that the request names is an item of the tree or its end,
    also where there is nothing to erase or a range runs backwards. The request
    may stop then, but the tree that it leaves is as good as any other. -/
def Command.OnLive (t : Tree key) (c : Command α κ ε) : Prop :=
  ∀ p ∈ c.positions, t.LiveOrEnd p

theorem Live.liveOrEnd (h : t.Live p) : t.LiveOrEnd p := by
  obtain ⟨htag, slot, hmem, hslot⟩ := h
  refine ⟨htag, ?_⟩
  rw [hslot]
  rintro s ⟨rfl⟩
  exact hmem

theorem LiveOrEnd.finish_or_live (h : t.LiveOrEnd p) : p = t.finish ∨ t.Live p := by
  obtain ⟨slot, tag⟩ := p
  obtain ⟨rfl, hslot⟩ := h
  cases slot with
  | none => exact .inl rfl
  | some slot => exact .inr ⟨rfl, slot, hslot slot rfl, rfl⟩

theorem liveOrEnd_finish (t : Tree key) : t.LiveOrEnd t.finish :=
  ⟨rfl, nofun⟩

theorem not_live_finish : ¬ t.Live t.finish := by
  rintro ⟨_, slot, _, hslot⟩
  cases hslot

/-- The entries are cut at one place only by the slot that comes after it. -/
theorem Represents.cut_eq {before after before' after' : List (Slot × α)} (h : t.Represents (before ++ after) o)
    (hsplit : before ++ after = before' ++ after')
    (hhead : after.head?.map Prod.fst = after'.head?.map Prod.fst) : before = before' ∧ after = after' := by
  have hcut (front middle back : List (Slot × α)) (hnodup : ((front ++ (middle ++ back)).map Prod.fst).Nodup)
      (hsame : (middle ++ back).head?.map Prod.fst = back.head?.map Prod.fst) : middle = [] := by
    cases middle with
    | nil => rfl
    | cons e rest =>
      cases back with
      | nil => cases hsame
      | cons d more =>
        have heq : e.1 = d.1 := by simpa using hsame
        simp [List.nodup_append, heq] at hnodup
  have hnodup := h.store.nodup
  obtain ⟨middle, rfl, rfl⟩ | ⟨middle, rfl, rfl⟩ := List.append_eq_append_iff.mp hsplit
  · obtain rfl := hcut before middle after' hnodup hhead
    simp
  · rw [List.append_assoc] at hnodup
    obtain rfl := hcut before' middle after hnodup hhead.symm
    simp

theorem InOrder.liveOrEnd {first last : Position} (h : t.InOrder first last) :
    t.LiveOrEnd first ∧ t.LiveOrEnd last := by
  obtain ⟨hfirst, hlast, before, between, after, hslots, hlower, hupper⟩ := h
  refine ⟨⟨hfirst, ?_⟩, hlast, ?_⟩
  · intro slot hslot
    rw [hlower] at hslot
    rw [hslots, List.append_assoc]
    exact List.mem_append_right _ (List.mem_of_mem_head? hslot)
  · intro slot hslot
    rw [hupper] at hslot
    rw [hslots]
    exact List.mem_append_right _ (List.mem_of_mem_head? hslot)

/-- A legal request names live positions only; what it asks for besides is that
    it can be done at them. -/
theorem Command.Legal.onLive {c : Command α κ ε} (h : c.Legal t) : c.OnLive t := by
  cases c with
  | erase q | remove q => simpa [OnLive, positions] using Live.liveOrEnd h
  | eraseRange first last => simpa [OnLive, positions] using InOrder.liveOrEnd h
  | insertUniqueHint hint _ | insertEqualHint hint _ | insertUniqueHintWith hint _ | insertEqualHintWith hint _ =>
    have hhint : t.LiveOrEnd hint := h
    simpa [OnLive, positions] using hhint
  | _ => simp [OnLive, positions]

/-- An insertion may have any live position or the end as its hint. -/
theorem Command.OnLive.legal {c : Command α κ ε} (h : c.OnLive t) (hc : c.Inserts) : c.Legal t := by
  cases c with
  | insertUniqueHint hint _ | insertEqualHint hint _ | insertUniqueHintWith hint _ | insertEqualHintWith hint _ =>
    exact h hint (by simp [positions])
  | insertUnique | insertEqual | insertUniqueWith | insertEqualWith => trivial
  | _ => exact hc.elim

theorem Represents.keeps_erase_finish (h : t.Represents entries o) :
    (Tree.erase t.finish : Op key (α × Position)).wp (fun _ _ => False)
      (fun fault u => fault = .erasingEnd ∧ t.ShrunkFrom entries o u) t := by
  have hfinish : (t.finish).tag = t.tag := rfl
  rw [Tree.erase, wp_bind, wp_owned hfinish]
  exact ⟨rfl, .kept (.refl t) h⟩

/-- A request that inserts nothing leaves some of the entries, whatever live
    positions it names and also where it stops. -/
theorem Represents.command_onLive_shrinks (h : t.Represents entries o) {c : Command α κ ε} (hc : ¬ c.Inserts)
    (hlive : c.OnLive t) :
    (c.run : Op key (Reply α ε)).wp (fun _ u => t.ShrunkFrom entries o u) (fun _ u => t.ShrunkFrom entries o u) t := by
  have hanswered (hlegal : c.Legal t) (hneeds : ¬ c.NeedsOrder) : (c.run : Op key (Reply α ε)).wp
      (fun _ u => t.ShrunkFrom entries o u) (fun _ u => t.ShrunkFrom entries o u) t :=
    wp_mono (h.command_shrinks hc hlegal fun horder => absurd horder hneeds) (fun _ _ hleft => hleft) fun _ _ =>
      False.elim
  cases c with
  | erase q =>
    obtain rfl | hq := (hlive q (by simp [Command.positions])).finish_or_live
    · rw [Command.run, wp_map]
      exact wp_mono h.keeps_erase_finish (fun _ _ => False.elim) fun _ _ hkept => hkept.2
    · exact hanswered hq id
  | remove q =>
    obtain rfl | hq := (hlive q (by simp [Command.positions])).finish_or_live
    · rw [Command.run, wp_map, Tree.remove, wp_bind]
      exact wp_mono h.keeps_erase_finish (fun _ _ => False.elim) fun _ _ hkept => hkept.2
    · exact hanswered hq id
  | eraseRange first last =>
    rw [Command.run, wp_map]
    exact h.eraseRange_shrinks (hlive first (by simp [Command.positions]))
      (hlive last (by simp [Command.positions])).1
  | eraseKey k =>
    rw [Command.run, wp_map]
    exact h.eraseKey_shrinks k
  | find | contains | lowerBound | upperBound | popFirst | popLast | clear => exact hanswered trivial id
  | _ => exact absurd trivial hc

/-- Whatever live positions a request names, it leaves a tree, also where it
    stops. -/
theorem Represents.command_onLive (h : t.Represents entries o) {c : Command α κ ε} (hlive : c.OnLive t) :
    (c.run : Op key (Reply α ε)).wp (fun _ u => t.ChangedFrom entries o u)
      (fun _ u => t.ChangedFrom entries o u) t := by
  by_cases hc : c.Inserts
  · exact h.command_stopped (hlive.legal hc)
  · exact wp_mono (h.command_onLive_shrinks hc hlive) (fun _ _ hleft => hleft.changedFrom)
      fun _ _ hleft => hleft.changedFrom

end Tree

namespace Forest

open RedBlack.Action

variable {α κ ε : Type} {key : α → κ} {f : Forest key} {t : Tree key}

/-- A request that names trees and positions of the collection, wherever these
    positions are. -/
def Command.OnLive (f : Forest key) : Command α κ ε → Prop
  | onTree i c => ∃ t, f.trees[i]? = some t ∧ c.OnLive t
  | c => c.Legal f

theorem Command.Legal.onLive {c : Command α κ ε} (h : c.Legal f) : c.OnLive f := by
  cases c with
  | onTree i c =>
    obtain ⟨t, ht, hc⟩ := h
    exact ⟨t, ht, hc.onLive⟩
  | _ => exact h

/-- A request at live positions keeps every tree well formed. -/
theorem Valid.step_onLive {ordered : Prop} {c : Command α κ ε} (h : f.Valid ordered) (hlive : c.OnLive f)
    (hkeeps : ordered → c.KeepsOrder f) : Valid ordered (c.run.run f).state := by
  cases c with
  | onTree i c =>
    obtain ⟨t, ht, hc⟩ := hlive
    exact h.onTree ht fun _ _ hrep => hrep.command_onLive hc
  | _ => exact h.step hlive hkeeps

/-- Requests at live positions lead to well-formed trees only, and to ordered
    ones if comparators order and copies keep the order. -/
theorem Reachable.valid_onLive {ordered : Prop} {allowed : Forest key → Command α κ ε → Prop}
    (h : Reachable allowed f) (hlive : ∀ f c, allowed f c → c.OnLive f)
    (hkeeps : ∀ f c, allowed f c → ordered → c.KeepsOrder f) : f.Valid ordered := by
  induction h with
  | empty =>
    intro t ht
    simp [Forest.empty] at ht
  | step _ hallowed ih => exact ih.step_onLive (hlive _ _ hallowed) (hkeeps _ _ hallowed)

/-- Whatever the comparators are, every tree that requests at live positions
    lead to represents some entries. -/
theorem Reachable.represents_onLive (h : Reachable (fun f (c : Command α κ ε) => c.OnLive f) f) (ht : t ∈ f.trees) :
    ∃ entries o, t.Represents entries o := by
  have hvalid : f.Valid False := h.valid_onLive (fun _ _ hlive => hlive) fun _ _ _ hfalse => hfalse.elim
  obtain ⟨entries, o, hrep, _⟩ := hvalid t ht
  exact ⟨entries, o, hrep⟩

/-- Where comparators order and copies keep the order, the entries are in
    order. -/
theorem Reachable.represents_sorted (h : Reachable (fun f (c : Command α κ ε) => c.OnLive f ∧ c.KeepsOrder f) f)
    (ht : t ∈ f.trees) :
    ∃ entries o, t.Represents entries o ∧ StrictWeak t.less ∧ Sorted t.less key entries := by
  have hvalid : f.Valid True := h.valid_onLive (fun _ _ hallowed => hallowed.1) fun _ _ hallowed _ => hallowed.2
  obtain ⟨entries, o, hrep, horder⟩ := hvalid t ht
  exact ⟨entries, o, hrep, horder trivial⟩

/-- The comparators of all trees order, whatever order their items have. A copy
    may bring its items out of order, but no tree ever changes its
    comparator. -/
def Orders (f : Forest key) : Prop :=
  ∀ t ∈ f.trees, StrictWeak t.less

theorem Orders.set {i : Nat} {u : Tree key} (h : f.Orders) (hu : StrictWeak u.less) :
    Orders { f with trees := f.trees.setIfInBounds i u } := by
  intro t ht
  obtain hmem | rfl := Array.mem_or_eq_of_mem_setIfInBounds ht
  · exact h t hmem
  · exact hu

theorem Orders.push {u : Tree key} {nextTag : UInt64} (h : f.Orders) (hu : StrictWeak u.less) :
    Orders { trees := f.trees.push u, nextTag } := by
  intro t ht
  obtain hmem | rfl := Array.mem_push.mp ht
  · exact h t hmem
  · exact hu

/-- A comparator belongs to its tree, and a copy has that of the tree that was
    copied. -/
theorem Orders.step {c : Command α κ ε} (h : f.Orders) (hvalid : f.Valid False) (hlive : c.OnLive f)
    (hplants : c.PlantsOrder) : (c.run.run f).state.Orders := by
  cases c with
  | plant less store => exact h.push hplants
  | onTree i c =>
    obtain ⟨t, ht, hc⟩ := hlive
    have hmem := Array.mem_of_getElem? ht
    obtain ⟨entries, o, hrep, _⟩ := hvalid t hmem
    obtain ⟨hu, _⟩ := state_of_wp (hrep.command_onLive hc)
    rw [state_onTree_command ht]
    exact h.set (hu.less ▸ h t hmem)
  | swap i j =>
    obtain ⟨hi, hj⟩ := hlive
    refine state_of_wp ?_
    simp only [Command.run, Forest.swap, tree, put, wp_bind, wp_look, Array.getElem?_eq_getElem hi,
      Array.getElem?_eq_getElem hj, wp_step]
    exact (h.set (h _ (Array.getElem_mem hj))).set (h _ (Array.getElem_mem hi))
  | copy make i store =>
    obtain ⟨hi, hstore⟩ := hlive
    have hmem := Array.getElem_mem hi
    obtain ⟨entries, o, hrep, _⟩ := hvalid _ hmem
    obtain ⟨replica, hrun, hresult⟩ := hrep.copyWith make f.nextTag hstore.holds_nil
    refine state_of_wp ?_
    simp only [Command.run, Forest.copyWith, tree, freshTag, wp_bind, wp_look, Array.getElem?_eq_getElem hi, wp_step,
      hrun, wp_notes, wp_pure]
    obtain ⟨copy, new, hcopy, _, hless, _⟩ | ⟨failure, rest, hcopy, _⟩ := hresult
    · simp only [hcopy, wp_step]
      exact h.push (hless ▸ h _ hmem)
    · simp only [hcopy]
      exact h
  | setBudget i budget =>
    have hless : StrictWeak f.trees[i].less := h _ (Array.getElem_mem hlive)
    rw [Command.run, state_onTree _ (Array.getElem?_eq_getElem hlive)]
    exact h.set hless

theorem Reachable.orders (h : Reachable (fun f (c : Command α κ ε) => c.OnLive f ∧ c.PlantsOrder) f) : f.Orders := by
  induction h with
  | empty =>
    intro t ht
    simp [Forest.empty] at ht
  | step hreach hallowed ih =>
    have hvalid : Valid False _ := hreach.valid_onLive (fun _ _ hallowed => hallowed.1) fun _ _ _ hfalse => hfalse.elim
    exact ih.step hvalid hallowed.1 hallowed.2

end Forest

end RedBlack
