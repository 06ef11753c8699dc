import RedBlack.Proofs.LivePositions
import RedBlack.Proofs.Tree.Runs
import RedBlack.Proofs.Wired.Requests
import RedBlack.Proofs.Wired.WellFormed

namespace RedBlack

open Shape (Links)

/-- Whatever items a store holds, there is one with the same layers whose nodes
    have links besides. -/
theorem Store.exists_linked {α : Type} (s : Store α) : ∃ store : Store (Links × α), store.map Prod.snd = s := by
  let node (item : α) : Links × α := (⟨0, .red, .nil, .nil, .nil⟩, item)
  refine ⟨s.map node, ?_⟩
  induction s with
  | arena base =>
    have hcell : Cell.map Prod.snd ∘ Cell.map node = id := by
      funext c
      cases c <;> rfl
    have hcells : (base.map node).map Prod.snd = base := by simp [Arena.map, hcell]
    rw [Store.map, Store.map, hcells]
  | counting below allocations deallocations ih | limited below remaining ih | recorded below calls ih =>
    rw [Store.map, Store.map, ih]

/-- Links that were written one after another, starting from a tree without
    nodes. A copy starts from a tree without nodes of its own, and reads the
    links of the tree that it copies. -/
inductive Wired.Written {α : Type} : Wired α → Prop where
  | empty (store : Store (Links × α)) : (Wired.empty store).Written
  | moves {g g' : Wired α} {moves : List (Move α)} : g.Written → (forM moves Move.wire).Leads g () g' → g'.Written
  | copy {ε : Type} {g g' : Wired α} {make : Nat → α → Except ε α} {store : Store (Links × α)} {given : List α} :
    g.Written → (Rewiring.copyTree g make).Leads (.empty store) (.ok (), given) g' → g'.Written

namespace Tree

variable {α κ : Type} {key : α → κ} {t u : Tree key} {entries : List (Slot × α)} {o : Outside α}

/-- Links that carry the tree have been written. -/
def HasLinks (t : Tree key) : Prop :=
  ∃ g : Wired α, g.Written ∧ g.Carries t

/-- Links that carry the tree have been written, and they are those of a
    red-black tree. -/
def HasSoundLinks (t : Tree key) : Prop :=
  ∃ g : Wired α, g.Written ∧ g.Carries t ∧ g.WellFormed t.shape.slots

theorem hasLinks_empty (key : α → κ) (less : κ → κ → Bool) (store : Store α) (tag : UInt64) :
    (Tree.empty key less store tag).HasLinks := by
  obtain ⟨linked, hlinked⟩ := store.exists_linked
  exact ⟨.empty linked, .empty linked, Wired.carries_empty hlinked⟩

theorem RelinksTo.hasLinks (h : t.RelinksTo u) (ht : t.HasLinks) : u.HasLinks := by
  obtain ⟨moves, _, hleads⟩ := h
  obtain ⟨g, hwritten, hg⟩ := ht
  obtain ⟨g', hmoves, hg'⟩ := hleads g hg
  exact ⟨g', hwritten.moves hmoves, hg'⟩

theorem HasLinks.copyWith {ε : Type} {make : Nat → α → Except ε α} {store : Store α} {tag : UInt64}
    {replica : Replica key ε} {copy : Tree key} (ht : t.HasLinks) (h : t.Represents entries o)
    (hrun : t.copyWith make store tag = .ok replica) (hresult : replica.result = .ok copy) : copy.HasLinks := by
  obtain ⟨g, hwritten, hg⟩ := ht
  obtain ⟨linked, rfl⟩ := store.exists_linked
  obtain ⟨hcopy, _⟩ := Rewiring.leads_copyTree hg h hrun
  obtain ⟨g', hleads, hcarries⟩ := hcopy copy hresult
  exact ⟨g', hwritten.copy hleads, hcarries⟩

theorem HasLinks.sound (ht : t.HasLinks) (h : t.Represents entries o) : t.HasSoundLinks := by
  obtain ⟨g, hwritten, hg⟩ := ht
  exact ⟨g, hwritten, hg, hg.wellFormed h⟩

section Runs

variable {ε : Type} {allowed : Tree key → Command α κ ε → Prop} {origin : Tree key}

/-- Every tree that a run of legal requests leads to has links if the tree at
    the start has. -/
theorem Reachable.hasLinks (h : Reachable allowed origin t) (hlegal : ∀ t c, allowed t c → c.Legal t)
    (horigin : origin.Represents entries o) (hlinks : origin.HasLinks) : t.HasLinks := by
  induction h with
  | start => exact hlinks
  | @step t c ht _ ih =>
    obtain ⟨_, left, hrep, _⟩ := ht.represents hlegal horigin
    exact (hrep.relinkedBy_command c).hasLinks ih
  | @setBudget t budget ht ih =>
    obtain ⟨_, left, hrep, _⟩ := ht.represents hlegal horigin
    exact (hrep.relinksTo (m := .setBudget budget) trivial rfl).hasLinks ih

end Runs

end Tree

namespace Forest

open RedBlack.Action

variable {α κ ε : Type} {key : α → κ} {f : Forest key} {i : Nat} {t u : Tree key}

/-- Links that carry them have been written for all trees, from the first
    request on. -/
def Linked (f : Forest key) : Prop :=
  ∀ t ∈ f.trees, t.HasLinks

theorem Linked.set (h : f.Linked) (hu : u.HasLinks) : Linked { f with trees := f.trees.setIfInBounds i u } := by
  intro t ht
  obtain hmem | rfl := Array.mem_or_eq_of_mem_setIfInBounds ht
  · exact h t hmem
  · exact hu

theorem Linked.push {nextTag : UInt64} (h : f.Linked) (hu : u.HasLinks) :
    Linked { trees := f.trees.push u, nextTag } := by
  intro t ht
  obtain hmem | rfl := Array.mem_push.mp ht
  · exact h t hmem
  · exact hu

/-- Every request is done link by link, where its trees represent something. -/
theorem Linked.step {c : Command α κ ε} (h : f.Linked) (hvalid : f.Valid False) (hlive : c.OnLive f) :
    (c.run.run f).state.Linked := by
  cases c with
  | plant less store => exact h.push (Tree.hasLinks_empty key less store f.nextTag)
  | onTree i c =>
    obtain ⟨t, ht, _⟩ := hlive
    have hmem := Array.mem_of_getElem? ht
    obtain ⟨entries, o, hrep, _⟩ := hvalid t hmem
    rw [state_onTree_command ht]
    exact h.set ((hrep.relinkedBy_command c).hasLinks (h t hmem))
  | swap i j =>
    obtain ⟨hi, hj⟩ := hlive
    refine state_of_wp ?_
    simp only [Command.run, Forest.swap, tree, put, wp_bind, wp_look, Array.getElem?_eq_getElem hi,
      Array.getElem?_eq_getElem hj, wp_step]
    exact (h.set (h _ (Array.getElem_mem hj))).set (h _ (Array.getElem_mem hi))
  | copy make i store =>
    obtain ⟨hi, hstore⟩ := hlive
    have hmem := Array.getElem_mem hi
    obtain ⟨entries, o, hrep, _⟩ := hvalid _ hmem
    obtain ⟨replica, hrun, _⟩ := hrep.copyWith make f.nextTag hstore.holds_nil
    refine state_of_wp ?_
    simp only [Command.run, Forest.copyWith, tree, freshTag, wp_bind, wp_look, Array.getElem?_eq_getElem hi, wp_step,
      hrun, wp_notes, wp_pure]
    cases hresult : replica.result with
    | ok copy => exact h.push ((h _ hmem).copyWith hrep hrun hresult)
    | error failure => exact h
  | setBudget i budget =>
    have hmem := Array.getElem_mem hlive
    obtain ⟨entries, o, hrep, _⟩ := hvalid _ hmem
    rw [Command.run, state_onTree _ (Array.getElem?_eq_getElem hlive)]
    exact h.set ((hrep.relinksTo (m := .setBudget budget) trivial rfl).hasLinks (h _ hmem))

/-- For every tree that requests at live positions lead to, links have been
    written that carry it: one request after the other, each done link by
    link. -/
theorem Reachable.linked (h : Reachable (fun f (c : Command α κ ε) => c.OnLive f) f) : f.Linked := by
  induction h with
  | empty =>
    intro t ht
    simp [Forest.empty] at ht
  | step hreach hlive ih =>
    exact ih.step (hreach.valid_onLive (fun _ _ hlive => hlive) fun _ _ _ hfalse => hfalse.elim) hlive

/-- Every tree of every run is a red-black tree, whatever its comparator and
    however copies are made, and so are the links that the run has written for
    it. In a run whose comparators order, and whose copies keep the order, the
    keys of every tree are in order too. -/
theorem reachable_trees_wellFormed (f : Forest key) :
    (Reachable (fun f (c : Command α κ ε) => c.Legal f) f →
      ∀ t ∈ f.trees, t.WellLinked ∧ t.HasSoundLinks) ∧
    (Reachable (fun f (c : Command α κ ε) => c.Legal f ∧ c.KeepsOrder f) f →
      ∀ t ∈ f.trees, t.KeysInOrder ∧ ∀ g : Wired α, g.Carries t → g.KeysInOrder t.less key t.shape.slots) := by
  constructor
  · intro h t ht
    have hlive := h.mono fun f c hlegal => Command.Legal.onLive hlegal
    obtain ⟨entries, o, hrep⟩ := hlive.represents_onLive ht
    exact ⟨hrep.wellLinked, (hlive.linked t ht).sound hrep⟩
  · intro h t ht
    have hlive := h.mono fun f c hallowed => And.imp_left Command.Legal.onLive hallowed
    obtain ⟨entries, o, hrep, _, hsorted⟩ := hlive.represents_sorted ht
    exact ⟨hrep.keysInOrder hsorted, fun g hg => hg.keysInOrder hrep hsorted⟩

/-- Two items are put into a tree, the tree is copied, and an item is erased
    from the copy. -/
theorem reachable_trees_wellFormed_copy :
    ∃ f : Forest (id : Nat → Nat), f.trees.map Tree.size = #[2, 1] ∧
      ∀ t ∈ f.trees, (t.WellLinked ∧ t.HasSoundLinks) ∧ t.KeysInOrder ∧
        ∀ g : Wired Nat, g.Carries t → g.KeysInOrder t.less id t.shape.slots := by
  let copyItem (_ : Nat) (item : Nat) : Except Empty Nat := .ok item
  have h₀ : Reachable (fun f (c : Command Nat Nat Empty) => c.Legal f ∧ c.KeepsOrder f)
    (.empty (id : Nat → Nat)) := .empty
  have h₁ := h₀.step (c := .plant (fun a b => decide (a < b)) (.arena .empty))
    ⟨Arena.sound_empty, StrictWeak.decide_lt⟩
  have h₂ := h₁.step (c := .onTree 0 (.insertEqual 2)) ⟨⟨_, rfl, trivial⟩, trivial⟩
  have h₃ := h₂.step (c := .onTree 0 (.insertUnique 1)) ⟨⟨_, rfl, trivial⟩, trivial⟩
  have h₄ := h₃.step (c := .copy copyItem 0 (.arena .empty)) ⟨⟨by decide, Arena.sound_empty⟩, by
    rintro t - m n a b a' b' ⟨rfl⟩ ⟨rfl⟩ h
    exact h⟩
  have h₅ := h₄.step (c := .onTree 1 (.eraseKey 1)) ⟨⟨_, rfl, trivial⟩, trivial⟩
  have hlegal := h₅.mono fun _ _ hallowed => hallowed.1
  refine ⟨_, ?_, fun t ht => ⟨(reachable_trees_wellFormed _).1 hlegal t ht, (reachable_trees_wellFormed _).2 h₅ t ht⟩⟩
  decide +kernel

/-- A copying function need not keep the order, though the comparator orders and
    every request is legal: the copy of a tree of 1 and 2 under `10 - item`
    holds 9 before 8. And trees that are exchanged take their comparators along:
    where an ascending tree was planted, a descending one stands afterwards. -/
theorem reachable_trees_out_of_order :
    (∃ f : Forest (id : Nat → Nat), ∃ t ∈ f.trees,
      Reachable (fun f (c : Command Nat Nat Empty) => c.Legal f ∧ c.PlantsOrder) f ∧
        t.items = .ok [9, 8] ∧ ¬ t.KeysInOrder) ∧
    (List.foldl (fun (f : Forest (id : Nat → Nat)) (c : Command Nat Nat Empty) => (c.run.run f).state) (.empty id)
      [.plant (fun a b => decide (a < b)) (.arena .empty), .plant (fun a b => decide (b < a)) (.arena .empty),
        .onTree 0 (.insertUnique 1), .onTree 0 (.insertUnique 2), .onTree 1 (.insertUnique 1),
        .onTree 1 (.insertUnique 2), .swap 0 1]).trees.map Tree.items = #[.ok [2, 1], .ok [1, 2]] := by
  constructor
  · let mirrorItem (_ : Nat) (item : Nat) : Except Empty Nat := .ok (10 - item)
    have h₀ : Reachable (fun f (c : Command Nat Nat Empty) => c.Legal f ∧ c.PlantsOrder)
      (.empty (id : Nat → Nat)) := .empty
    have h₁ := h₀.step (c := .plant (fun a b => decide (a < b)) (.arena .empty))
      ⟨Arena.sound_empty, StrictWeak.decide_lt⟩
    have h₂ := h₁.step (c := .onTree 0 (.insertUnique 1)) ⟨⟨_, rfl, trivial⟩, trivial⟩
    have h₃ := h₂.step (c := .onTree 0 (.insertUnique 2)) ⟨⟨_, rfl, trivial⟩, trivial⟩
    have h₄ := h₃.step (c := .copy mirrorItem 0 (.arena .empty)) ⟨⟨by decide, Arena.sound_empty⟩, trivial⟩
    refine ⟨_, _, Array.mem_of_getElem? (i := 1) rfl, h₄, rfl, ?_⟩
    rintro ⟨items, hitems, hordered⟩
    obtain rfl : [9, 8] = items := Except.ok.inj hitems
    have hless : decide (8 < 9) = false := (List.pairwise_cons.mp hordered).1 8 (by simp)
    cases hless
  · decide +kernel

end Forest

end RedBlack
