import RedBlack.Proofs.LivePositions
import RedBlack.Proofs.Tree.Linked
import RedBlack.Proofs.Tree.Walk

namespace RedBlack

/-- What an iterator over both ends may be asked for. -/
inductive EndCall where
  /-- The outermost item left on a side. -/
  | take (side : Side)
  /-- Bounds on how many items are left. -/
  | bounds
  deriving DecidableEq, Repr

/-- The reply to a call. -/
inductive EndReply (β : Type) where
  | item (x : Option β)
  | bounds (lower upper : Nat)
  deriving DecidableEq, Repr

section Items

variable {β γ : Type}

/-- The reply to a call once no items are left. -/
def EndCall.nothing : EndCall → EndReply β
  | take _ => .item none
  | bounds => .bounds 0 0

/-- What a list replies to calls, one after the other. A walk over a tree that
    nobody changes and a drain that takes its items out both reply the same. -/
def replyEnds : List EndCall → List β → List (EndReply β)
  | [], _ => []
  | .take .left :: script, items => .item items.head? :: replyEnds script items.tail
  | .take .right :: script, items => .item items.getLast? :: replyEnds script items.dropLast
  | .bounds :: script, items => .bounds items.length items.length :: replyEnds script items

/-- What calls, one after the other, leave of a list. -/
def leaveEnds : List EndCall → List β → List β
  | [], items => items
  | .take .left :: script, items => leaveEnds script items.tail
  | .take .right :: script, items => leaveEnds script items.dropLast
  | .bounds :: script, items => leaveEnds script items

theorem leaveEnds_map (f : β → γ) (script : List EndCall) (items : List β) :
    leaveEnds script (items.map f) = (leaveEnds script items).map f := by
  induction script generalizing items with
  | nil => rfl
  | cons call script ih =>
    cases call with
    | take side =>
      cases side with
      | left => rw [leaveEnds, leaveEnds, ← List.map_tail, ih]
      | right => rw [leaveEnds, leaveEnds, ← List.map_dropLast, ih]
    | bounds => exact ih items

theorem leaveEnds_sublist (script : List EndCall) (items : List β) : (leaveEnds script items).Sublist items := by
  induction script generalizing items with
  | nil => exact List.Sublist.refl _
  | cons call script ih =>
    cases call with
    | take side =>
      cases side with
      | left => exact (ih _).trans (List.tail_sublist _)
      | right => exact (ih _).trans (List.dropLast_sublist _)
    | bounds => exact ih items

theorem leaveEnds_nil (script : List EndCall) : leaveEnds script ([] : List β) = [] :=
  List.sublist_nil.mp (leaveEnds_sublist script [])

theorem leaveEnds_eq_nil {script : List EndCall} {items : List β} (h : .item none ∈ replyEnds script items) :
    leaveEnds script items = [] := by
  induction script generalizing items with
  | nil => cases h
  | cons call script ih =>
    cases call with
    | take side =>
      cases side with
      | left =>
        obtain hnow | hlater := List.mem_cons.mp h
        · obtain rfl := List.head?_eq_none_iff.mp (EndReply.item.inj hnow).symm
          exact leaveEnds_nil _
        · exact ih hlater
      | right =>
        obtain hnow | hlater := List.mem_cons.mp h
        · obtain rfl := List.getLast?_eq_none_iff.mp (EndReply.item.inj hnow).symm
          exact leaveEnds_nil _
        · exact ih hlater
    | bounds =>
      obtain hnow | hlater := List.mem_cons.mp h
      · cases hnow
      · exact ih hlater

end Items

namespace Walk

variable {α κ β : Type} {key : α → κ} {w : Walk key β} {before between after : List (Slot × α)} {o : Outside α}

/-- Answers calls, one after the other. -/
def serve : List EndCall → Walk key β → Except Fault (List (EndReply β) × Walk key β)
  | [], w => return ([], w)
  | .take side :: script, w => do
    let (item, w) ← w.advance side
    let (replies, w) ← w.serve script
    return (.item item :: replies, w)
  | .bounds :: script, w => do
    let (replies, last) ← w.serve script
    return (.bounds w.bounds.1 w.bounds.2 :: replies, last)

/-- A walk that counts replies as the list of the items that it covers, and goes
    on to cover what is left of them. -/
theorem Covers.serve (h : w.Covers before between after o) (hcounts : w.remaining.isSome = true)
    (script : List EndCall) :
    ∃ w' before' after', w.serve script = .ok (replyEnds script (between.map (w.view ∘ Prod.snd)), w') ∧
      w'.Covers before' (leaveEnds script between) after' o ∧ w'.remaining.isSome = true := by
  induction script generalizing w before between after with
  | nil => exact ⟨w, before, after, rfl, h, hcounts⟩
  | cons call script ih =>
    cases call with
    | take side =>
      cases side with
      | left =>
        cases between with
        | nil =>
          obtain ⟨w', before', after', hrest, hdone⟩ := ih h hcounts
          exact ⟨w', before', after', by simp [Walk.serve, h.advance_nil, hrest, replyEnds], hdone⟩
        | cons e rest =>
          obtain ⟨w₁, hrun, hcovers, hview, _, hsome⟩ := h.forward
          obtain ⟨w', before', after', hrest, hdone⟩ := ih hcovers (hsome.trans hcounts)
          exact ⟨w', before', after', by simp [Walk.serve, Walk.advance, hrun, hrest, hview, replyEnds], hdone⟩
      | right =>
        cases between using List.reverseRecOn with
        | nil =>
          obtain ⟨w', before', after', hrest, hdone⟩ := ih h hcounts
          exact ⟨w', before', after', by simp [Walk.serve, h.advance_nil, hrest, replyEnds], hdone⟩
        | append_singleton rest e =>
          obtain ⟨w₁, hrun, hcovers, hview, _, hsome⟩ := h.backward
          obtain ⟨w', before', after', hrest, hdone⟩ := ih hcovers (hsome.trans hcounts)
          rw [leaveEnds, List.dropLast_concat]
          exact ⟨w', before', after', by simp [Walk.serve, Walk.advance, hrun, hrest, hview, replyEnds], hdone⟩
    | bounds =>
      obtain ⟨w', before', after', hrest, hdone⟩ := ih h hcounts
      exact ⟨w', before', after', by simp [Walk.serve, hrest, h.bounds_counted hcounts, replyEnds], hdone⟩

theorem Covers.serve_nil (h : w.Covers before [] after o) (hcounts : w.remaining.isSome = true)
    (script : List EndCall) : w.serve script = .ok (script.map EndCall.nothing, w) := by
  induction script with
  | nil => rfl
  | cons call script ih =>
    cases call with
    | take side => simp [Walk.serve, h.advance_nil, ih, EndCall.nothing]
    | bounds => simp [Walk.serve, ih, h.bounds_counted hcounts, EndCall.nothing]

end Walk

namespace Drain

open RedBlack.Action

variable {α κ : Type} {key : α → κ} {d : Drain key} {entries : List (Slot × α)} {o : Outside α}

/-- Answers calls, one after the other. -/
def serve : List EndCall → Action (Drain key) κ (List (EndReply α))
  | [] => return []
  | .take side :: script => do
    let item ← advance side
    return .item item :: (← serve script)
  | .bounds :: script => do
    let (lower, upper) ← .look fun d => .ok d.bounds
    return .bounds lower upper :: (← serve script)

/-- A drain replies as the list of its items, and what is left of it is a tree
    of what is left of the list: each item given has been unlinked and the
    balance restored. -/
theorem serve_spec (h : d.tree.Represents entries o) (script : List EndCall) :
    (serve script).Yields d fun replies d' => replies = replyEnds script (entries.map Prod.snd) ∧
      d'.tree.Continues d.tree ∧ d'.tree.Represents (leaveEnds script entries) o := by
  induction script generalizing d entries with
  | nil => exact ⟨rfl, .refl _, h⟩
  | cons call script ih =>
    cases call with
    | take side =>
      rw [serve, Yields, wp_bind]
      refine (advance_spec h side).mono ?_
      rintro item d₁ ⟨hd₁, hstep⟩
      rw [wp_bind]
      cases side with
      | left =>
        obtain ⟨rfl, hleft⟩ := hstep
        refine (ih hleft).mono ?_
        rintro _ d₂ ⟨rfl, hd₂, hrep⟩
        exact ⟨by simp [replyEnds], hd₂.trans hd₁, hrep⟩
      | right =>
        obtain ⟨rfl, hleft⟩ := hstep
        refine (ih hleft).mono ?_
        rintro _ d₂ ⟨rfl, hd₂, hrep⟩
        exact ⟨by simp [replyEnds, List.map_dropLast], hd₂.trans hd₁, hrep⟩
    | bounds =>
      rw [serve, Yields, wp_bind, wp_view]
      simp only [wp_bind]
      refine (ih h).mono ?_
      rintro _ d₁ ⟨rfl, hd₁, hrep⟩
      exact ⟨by simp [replyEnds, Drain.bounds, h.size], hd₁, hrep⟩

theorem advance_nil (h : d.tree.Represents [] o) (side : Side) :
    (advance side).Yields d fun item d' => item = none ∧ d' = d := by
  cases side with
  | left =>
    rw [advance, onTree, Yields, wp_within, Tree.popFirst, wp_bind, wp_look_ok (s := d.tree) rfl, h.isEmpty]
    exact ⟨rfl, rfl⟩
  | right =>
    rw [advance, onTree, Yields, wp_within, Tree.popLast, wp_bind, wp_look_ok (s := d.tree) rfl, h.isEmpty]
    exact ⟨rfl, rfl⟩

theorem serve_nil (h : d.tree.Represents [] o) (script : List EndCall) :
    (serve script).Yields d fun replies d' => replies = script.map EndCall.nothing ∧ d' = d := by
  induction script with
  | nil => exact ⟨rfl, rfl⟩
  | cons call script ih =>
    cases call with
    | take side =>
      rw [serve, Yields, wp_bind]
      refine (advance_nil h side).mono ?_
      rintro _ d' ⟨rfl, rfl⟩
      rw [wp_bind]
      refine ih.mono ?_
      rintro _ d' ⟨rfl, rfl⟩
      exact ⟨rfl, rfl⟩
    | bounds =>
      rw [serve, Yields, wp_bind, wp_view]
      simp only [wp_bind]
      refine ih.mono ?_
      rintro _ d' ⟨rfl, rfl⟩
      exact ⟨by simp [Drain.bounds, h.size, EndCall.nothing], rfl⟩

end Drain

namespace Tree

open RedBlack.Action

variable {α κ ε : Type} {key : α → κ} {t u : Tree key} {entries rest : List (Slot × α)} {o : Outside α}

/-- How a walk over a tree and a drain of it stand after the same calls, if the
    tree had the given items. -/
structure AgreesAfter (t : Tree key) (items : List α) (script : List EndCall) (w : Walk key α) (d : Drain key) :
    Prop where
  walk : t.walk.serve script = .ok (replyEnds script items, w)
  drain : ((Drain.serve script).run t.drain).answer = .ok (replyEnds script items)
  state : ((Drain.serve script).run t.drain).state = d
  bounds : d.bounds = w.bounds
  left : d.tree.items = .ok (leaveEnds script items)
  wellLinked : d.tree.WellLinked
  keysInOrder : t.KeysInOrder → d.tree.KeysInOrder
  /-- Once an item was asked for and none was left, there is nothing more, and
      nothing changes. -/
  exhausted : .item none ∈ replyEnds script items → ∀ more,
    w.serve more = .ok (more.map EndCall.nothing, w) ∧
      ((Drain.serve more).run d).answer = .ok (more.map EndCall.nothing) ∧ ((Drain.serve more).run d).state = d

theorem Represents.keysInOrder_of_sublist (h : t.Represents entries o) (hu : u.Continues t)
    (hrep : u.Represents rest o) (hsub : rest.Sublist entries) (hkeys : t.KeysInOrder) : u.KeysInOrder := by
  obtain ⟨items, hitems, hsorted⟩ := hkeys
  obtain rfl := Except.ok.inj (h.items.symm.trans hitems)
  refine ⟨_, hrep.items, ?_⟩
  rw [hu.less]
  exact hsorted.sublist (hsub.map Prod.snd)

theorem Represents.agreesAfter (h : t.Represents entries o) (script : List EndCall) :
    ∃ w d, t.AgreesAfter (entries.map Prod.snd) script w d := by
  obtain ⟨w, before, after, hwalk, hcovers, hcounts⟩ := h.walk.serve rfl script
  have hdrain : (t.drain : Drain key).tree.Represents entries o := h
  obtain ⟨_, hanswer, rfl, hu, hrep⟩ := (Drain.serve_spec hdrain script).answer
  refine ⟨w, _, hwalk, hanswer, rfl, ?_, ?_, hrep.wellLinked, ?_, ?_⟩
  · rw [hcovers.bounds_counted hcounts, Drain.bounds, hrep.size]
  · rw [hrep.items, leaveEnds_map]
  · exact h.keysInOrder_of_sublist hu hrep (leaveEnds_sublist script entries)
  · intro hnone more
    have hnil := leaveEnds_eq_nil hnone
    rw [leaveEnds_map, List.map_eq_nil_iff] at hnil
    rw [hnil] at hcovers hrep
    obtain ⟨_, hmore, rfl, hsame⟩ := (Drain.serve_nil hrep more).answer
    exact ⟨hcovers.serve_nil hcounts more, hmore, hsame⟩

/-- A tree that is taken apart from its ends gives, call by call, what a walk
    over it gives: the same items and the same bounds on how many are left, from
    both ends in any order. What is left of it in between has all the structure
    of a red-black tree, and its keys are in order if they were. After the last
    item both give nothing for good. -/
theorem drain_agrees_with_walk {f : Forest key} (hf : f.Reachable fun f (c : Forest.Command α κ ε) => c.OnLive f)
    (ht : t ∈ f.trees) :
    ∃ items, t.items = .ok items ∧ ∀ script, ∃ w d, t.AgreesAfter items script w d := by
  obtain ⟨entries, o, h⟩ := hf.represents_onLive ht
  exact ⟨_, h.items, h.agreesAfter⟩

/-- A drain of 1, 2, 3 and 4 gives 4, 1 and 2, says that one is left, gives 3
    and then nothing. Before that one is given its tree is a single black node,
    and after it the next bounds are 0. -/
theorem drain_agrees_with_walk_four :
    ∃ t : Tree (id : Nat → Nat), t.items = .ok [1, 2, 3, 4] ∧
      ((Drain.serve [.bounds, .take .right, .take .left, .take .left, .bounds, .take .right, .take .right]).run
        t.drain).answer =
          .ok [.bounds 4 4, .item (some 4), .item (some 1), .item (some 2), .bounds 1 1, .item (some 3), .item none] ∧
      (∃ w d, t.AgreesAfter [1, 2, 3, 4] [.take .right, .take .left, .take .left] w d ∧
        d.tree.shape = .node .black .nil 3 .nil ∧ d.tree.KeysInOrder) ∧
      ∃ w d, t.AgreesAfter [1, 2, 3, 4] [.bounds, .take .right, .take .left, .take .left, .bounds, .take .right,
          .take .right] w d ∧
        ((Drain.serve [.take .left, .bounds]).run d).answer = .ok [.item none, .bounds 0 0] := by
  have h₀ : Forest.Reachable (fun f (c : Forest.Command Nat Nat Empty) => c.OnLive f) (.empty (id : Nat → Nat)) :=
    .empty
  have h₁ := h₀.step (c := .plant (fun a b => decide (a < b)) (.arena .empty)) Arena.sound_empty
  have h₂ := h₁.step (c := .onTree 0 (.insertEqual 2)) ⟨_, rfl, nofun⟩
  have h₃ := h₂.step (c := .onTree 0 (.insertEqual 1)) ⟨_, rfl, nofun⟩
  have h₄ := h₃.step (c := .onTree 0 (.insertEqual 4)) ⟨_, rfl, nofun⟩
  have h₅ := h₄.step (c := .onTree 0 (.insertEqual 3)) ⟨_, rfl, nofun⟩
  obtain ⟨items, hitems, hagrees⟩ := drain_agrees_with_walk h₅ (Array.mem_of_getElem? (i := 0) rfl)
  obtain rfl : items = [1, 2, 3, 4] := Except.ok.inj (hitems.symm.trans rfl)
  obtain ⟨w, d, hthree⟩ := hagrees [.take .right, .take .left, .take .left]
  obtain ⟨w', d', hall⟩ :=
    hagrees [.bounds, .take .right, .take .left, .take .left, .bounds, .take .right, .take .right]
  refine ⟨_, hitems, hall.drain, ⟨w, d, hthree, ?_, hthree.keysInOrder ⟨_, hitems, ?_⟩⟩, w', d', hall, ?_⟩
  · rw [← hthree.state]
    decide +kernel
  · show [1, 2, 3, 4].Pairwise fun a b => decide (b < a) = false
    decide
  · exact (hall.exhausted (by decide) _).2.1

end Tree

end RedBlack
