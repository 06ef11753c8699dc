import RedBlack.Proofs.Tree.Commands

namespace RedBlack

namespace Tree

open RedBlack.Action

variable {α κ ε : Type} {key : α → κ} {origin t : Tree key} {entries : List (Slot × α)} {o : Outside α}
  {allowed : Tree key → Command α κ ε → Prop}

/-- The trees that allowed requests lead to from a given one. Between two
    requests the limit of the store may be set anew. -/
inductive Reachable (allowed : Tree key → Command α κ ε → Prop) (origin : Tree key) : Tree key → Prop where
  | start : Reachable allowed origin origin
  | step {t : Tree key} {c : Command α κ ε} : Reachable allowed origin t → allowed t c →
    Reachable allowed origin (c.run.run t).state
  | setBudget {t : Tree key} (budget : Nat) : Reachable allowed origin t →
    Reachable allowed origin { t with store := t.store.setBudget budget }

/-- A run of legal requests keeps a tree, also where a request stops, and its
    keys stay in order if its comparator orders. -/
theorem Reachable.represents (h : Reachable allowed origin t) (hlegal : ∀ t c, allowed t c → c.Legal t)
    (horigin : origin.Represents entries o) :
    t.Continues origin ∧ ∃ left, t.Represents left o ∧
      (StrictWeak origin.less → Sorted origin.less key entries → Sorted origin.less key left) := by
  induction h with
  | start => exact ⟨.refl origin, entries, horigin, fun _ hsorted => hsorted⟩
  | @step t c _ hallowed ih =>
    obtain ⟨ht, left, hrep, hsorted⟩ := ih
    obtain ⟨hu, after, hafter, hchange⟩ := state_of_wp (hrep.command_stopped (hlegal t c hallowed))
    refine ⟨hu.trans ht, after, hafter, ?_⟩
    intro hless horder
    rw [ht.less] at hchange
    exact hchange.sorted hless (hsorted hless horder)
  | @setBudget t budget _ ih =>
    obtain ⟨ht, left, hrep, hsorted⟩ := ih
    exact ⟨⟨ht.less, ht.tag⟩, left, hrep.withStore (hrep.store.setBudget budget), hsorted⟩

/-- In a run of legal requests a further one is answered, if the comparator
    orders wherever it has to. -/
theorem Reachable.answers (h : Reachable allowed origin t) (hlegal : ∀ t c, allowed t c → c.Legal t)
    (horigin : origin.Represents entries o) {c : Command α κ ε} (hc : c.Legal t)
    (horder : c.NeedsOrder → StrictWeak origin.less) : ∃ reply, (c.run.run t).answer = .ok reply := by
  obtain ⟨ht, left, hrep, _⟩ := h.represents hlegal horigin
  have hneeds : c.NeedsOrder → StrictWeak t.less := ht.less ▸ horder
  obtain ⟨reply, hreply, _⟩ := (hrep.command hc hneeds).answer
  exact ⟨reply, hreply⟩

end Tree

end RedBlack
