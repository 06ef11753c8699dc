import RedBlack.Forest
import RedBlack.Proofs.Tree.Commands
import RedBlack.Proofs.Tree.Linked
import RedBlack.Proofs.Tree.Replica

namespace RedBlack

namespace Forest

open RedBlack.Action

/-- A request to a collection of trees. -/
inductive Command (α κ ε : Type) where
  /-- A new tree without items. -/
  | plant (less : κ → κ → Bool) (store : Store α)
  /-- A request to the tree at a place. -/
  | onTree (i : Nat) (c : Tree.Command α κ ε)
  | swap (i j : Nat)
  /-- A copy of the tree at a place, behind the others if it comes about. -/
  | copy (make : Nat → α → Except ε α) (i : Nat) (store : Store α)
  /-- The limit of the store of a tree is set anew. -/
  | setBudget (i budget : Nat)

namespace Command

variable {α κ ε : Type} {key : α → κ}

def run : Command α κ ε → Action (Forest key) κ Unit
  | plant less store => Forest.plant less store
  | onTree i c => do
    let _ ← Forest.onTree i c.run
  | swap i j => Forest.swap i j
  | copy make i store => do
    let replica ← Forest.copyWith make i store
    match replica.result with
    | .ok t => .step fun f => .ok ((), { f with trees := f.trees.push t })
    | .error _ => return ()
  | setBudget i budget =>
    Forest.onTree i (.step fun t => .ok ((), { t with store := t.store.setBudget budget }))

/-- The places of a request are those of trees, its positions are such as their
    tree may be given, and the store of a new tree is sound. -/
def Legal (f : Forest key) : Command α κ ε → Prop
  | plant _ store => store.Sound
  | onTree i c => ∃ t, f.trees[i]? = some t ∧ c.Legal t
  | swap i j => i < f.trees.size ∧ j < f.trees.size
  | copy _ i store => i < f.trees.size ∧ store.Sound
  | setBudget i _ => i < f.trees.size

/-- The comparator of a new tree orders. -/
def PlantsOrder : Command α κ ε → Prop
  | plant less _ => StrictWeak less
  | _ => True

/-- The comparator of a new tree orders, and the items of a copy are in order
    where those copied are. -/
def KeepsOrder (f : Forest key) : Command α κ ε → Prop
  | plant less _ => StrictWeak less
  | copy make i _ => ∀ t, f.trees[i]? = some t → ∀ m n a b a' b', make m a = .ok a' → make n b = .ok b' →
    t.less (key b) (key a) = false → t.less (key b') (key a') = false
  | _ => True

end Command

variable {α κ ε ρ : Type} {key : α → κ} {f : Forest key} {i : Nat} {t : Tree key}

/-- The forests that requests of a kind lead to, from the one without trees.
    Trees are planted, changed by requests, exchanged and copied, and their
    stores may run out at any time. -/
inductive Reachable (allowed : Forest key → Command α κ ε → Prop) : Forest key → Prop where
  | empty : Reachable allowed (.empty key)
  | step {f : Forest key} {c : Command α κ ε} : Reachable allowed f → allowed f c →
    Reachable allowed (c.run.run f).state

/-- Every tree represents some entries, in order if that is asked for. This is
    what one request keeps, whether it is answered or stops, and so holds in
    every forest that is reached. -/
def Valid (ordered : Prop) (f : Forest key) : Prop :=
  ∀ t ∈ f.trees, ∃ entries o, t.Represents entries o ∧ (ordered → StrictWeak t.less ∧ Sorted t.less key entries)

theorem state_onTree (op : Tree.Op key ρ) (ht : f.trees[i]? = some t) :
    ((onTree i op).run f).state = { f with trees := f.trees.setIfInBounds i (op.run t).state } := by
  change (Action.bind (tree i) _ f).state = _
  simp only [Action.bind, tree, look, ht]
  rfl

/-- A request to one tree leaves the others as they are, and puts the later
    state of that tree in its place. -/
theorem state_onTree_command {c : Tree.Command α κ ε} (ht : f.trees[i]? = some t) :
    ((Command.onTree i c).run.run f).state = { f with trees := f.trees.setIfInBounds i (c.run.run t).state } := by
  have hstate : ((Command.onTree i c).run.run f).state = ((Forest.onTree i c.run).run f).state := by
    change (Action.bind (Forest.onTree i c.run) _ f).state = _
    rw [Action.bind]
    split <;> rfl
  rw [hstate, state_onTree c.run ht]

theorem Valid.set {ordered : Prop} {u : Tree key} (h : f.Valid ordered)
    (hu : ∃ entries o, u.Represents entries o ∧ (ordered → StrictWeak u.less ∧ Sorted u.less key entries)) :
    Valid ordered { f with trees := f.trees.setIfInBounds i u } := by
  intro t ht
  obtain hmem | rfl := Array.mem_or_eq_of_mem_setIfInBounds ht
  · exact h t hmem
  · exact hu

theorem Valid.push {ordered : Prop} {u : Tree key} {nextTag : UInt64} (h : f.Valid ordered)
    (hu : ∃ entries o, u.Represents entries o ∧ (ordered → StrictWeak u.less ∧ Sorted u.less key entries)) :
    Valid ordered { trees := f.trees.push u, nextTag } := by
  intro t ht
  obtain hmem | rfl := Array.mem_push.mp ht
  · exact h t hmem
  · exact hu

theorem exists_source {make : Nat → α → Except ε α} {entries new : List (Slot × α)} {f : Slot × α}
    (hcopied : CopiedFrom make entries new) (hf : f ∈ new) :
    ∃ e ∈ entries, ∃ call, make call e.2 = .ok f.2 := by
  induction hcopied with
  | nil => cases hf
  | cons hfirst hrest ih =>
    obtain rfl | hf := List.mem_cons.mp hf
    · exact ⟨_, List.mem_cons_self, hfirst⟩
    · obtain ⟨e, he, hmake⟩ := ih hf
      exact ⟨e, List.mem_cons_of_mem _ he, hmake⟩

/-- A copy of ordered entries is ordered if copying keeps the order. -/
theorem sorted_copy {less : κ → κ → Bool} {make : Nat → α → Except ε α} {entries new : List (Slot × α)}
    (hkeeps : ∀ m n a b a' b', make m a = .ok a' → make n b = .ok b' →
      less (key b) (key a) = false → less (key b') (key a') = false)
    (hcopied : CopiedFrom make entries new) (hsorted : Sorted less key entries) : Sorted less key new := by
  induction hcopied with
  | nil => exact List.Pairwise.nil
  | cons hfirst hrest ih =>
    obtain ⟨hle, hsorted⟩ := List.pairwise_cons.mp hsorted
    refine List.pairwise_cons.mpr ⟨?_, ih hsorted⟩
    intro f hf
    obtain ⟨m, hm⟩ := hfirst
    obtain ⟨e, he, n, hn⟩ := exists_source hrest hf
    exact hkeeps m n _ _ _ _ hm hn (hle e he)

/-- A request to one tree keeps every tree well formed if it leaves a later
    state of that one. -/
theorem Valid.onTree {ordered : Prop} {c : Tree.Command α κ ε} (h : f.Valid ordered) (ht : f.trees[i]? = some t)
    (hc : ∀ entries o, t.Represents entries o →
      (c.run : Tree.Op key _).wp (fun _ => t.ChangedFrom entries o) (fun _ => t.ChangedFrom entries o) t) :
    Valid ordered ((Command.onTree i c).run.run f).state := by
  obtain ⟨entries, o, hrep, horder⟩ := h t (Array.mem_of_getElem? ht)
  obtain ⟨hu, after, hafter, hchange⟩ := state_of_wp (hc entries o hrep)
  rw [state_onTree_command ht]
  refine h.set ⟨after, o, hafter, ?_⟩
  intro hordered
  obtain ⟨hless, hsorted⟩ := horder hordered
  rw [hu.less]
  exact ⟨hless, hchange.sorted hless hsorted⟩

/-- One legal request keeps every tree well formed, whether it is answered or
    stops. -/
theorem Valid.step {ordered : Prop} {c : Command α κ ε} (h : f.Valid ordered) (hlegal : c.Legal f)
    (hkeeps : ordered → c.KeepsOrder f) : Valid ordered (c.run.run f).state := by
  cases c with
  | plant less store =>
    have hempty : (Tree.empty key less store f.nextTag).Represents [] _ :=
      Tree.represents_empty (Store.Sound.holds_nil hlegal)
    exact h.push ⟨_, _, hempty, fun hordered => ⟨hkeeps hordered, List.Pairwise.nil⟩⟩
  | onTree i c =>
    obtain ⟨t, ht, hc⟩ := hlegal
    exact h.onTree ht fun _ _ hrep => hrep.command_stopped hc
  | swap i j =>
    obtain ⟨hi, hj⟩ := hlegal
    have hti : f.trees[i]? = some f.trees[i] := Array.getElem?_eq_getElem hi
    have htj : f.trees[j]? = some f.trees[j] := Array.getElem?_eq_getElem hj
    refine state_of_wp ?_
    simp only [Command.run, Forest.swap, tree, put, wp_bind, wp_look, hti, htj, wp_step]
    exact (h.set (h _ (Array.getElem_mem hj))).set (h _ (Array.getElem_mem hi))
  | copy make i store =>
    obtain ⟨hi, hstore⟩ := hlegal
    have hti : f.trees[i]? = some f.trees[i] := Array.getElem?_eq_getElem hi
    obtain ⟨entries, o, hrep, horder⟩ := h _ (Array.getElem_mem hi)
    obtain ⟨replica, hrun, hresult⟩ := hrep.copyWith make f.nextTag hstore.holds_nil
    refine state_of_wp ?_
    simp only [Command.run, Forest.copyWith, tree, freshTag, wp_bind, wp_look, hti, wp_step, hrun, wp_notes,
      wp_pure]
    obtain ⟨copy, new, hcopy, hnew, hless, _, _, hcopied⟩ | ⟨failure, rest, hcopy, _, _⟩ := hresult
    · simp only [hcopy, wp_step]
      refine h.push ⟨new, _, hnew, ?_⟩
      intro hordered
      obtain ⟨hweak, hsorted⟩ := horder hordered
      rw [hless]
      exact ⟨hweak, sorted_copy (hkeeps hordered _ hti) hcopied hsorted⟩
    · simp only [hcopy]
      exact h
  | setBudget i budget =>
    have hti : f.trees[i]? = some f.trees[i] := Array.getElem?_eq_getElem hlegal
    obtain ⟨entries, o, hrep, horder⟩ := h _ (Array.getElem_mem hlegal)
    rw [Command.run, state_onTree _ hti]
    exact h.set ⟨entries, o, hrep.withStore (hrep.store.setBudget budget), horder⟩

theorem Reachable.mono {allowed allowed' : Forest key → Command α κ ε → Prop} (h : Reachable allowed f)
    (hmore : ∀ f c, allowed f c → allowed' f c) : Reachable allowed' f := by
  induction h with
  | empty => exact .empty
  | step _ hallowed ih => exact ih.step (hmore _ _ hallowed)

theorem Reachable.valid {ordered : Prop} {allowed : Forest key → Command α κ ε → Prop}
    (h : Reachable allowed f) (hlegal : ∀ f c, allowed f c → c.Legal f)
    (hkeeps : ∀ f c, allowed f c → ordered → c.KeepsOrder f) : f.Valid ordered := by
  induction h with
  | empty =>
    intro t ht
    simp [Forest.empty] at ht
  | step _ hallowed ih => exact ih.step (hlegal _ _ hallowed) (hkeeps _ _ hallowed)

/-- Whatever the comparators are, every tree of a run represents some entries:
    its nodes, its ends and its store agree, and the rules of the colours
    hold. -/
theorem Reachable.represents (h : Reachable (fun f (c : Command α κ ε) => c.Legal f) f) (ht : t ∈ f.trees) :
    ∃ entries o, t.Represents entries o := by
  have hvalid : f.Valid False := h.valid (fun _ _ hlegal => hlegal) fun _ _ _ hfalse => hfalse.elim
  obtain ⟨entries, o, hrep, _⟩ := hvalid t ht
  exact ⟨entries, o, hrep⟩

end Forest

end RedBlack
