import RedBlack.Proofs.Tree.Removal
import RedBlack.Tree.Walk

namespace RedBlack

/-- What a list gives when it is asked for items one after the other, each at
    the end named. -/
def takeEnds {β : Type} : List Side → List β → List (Option β)
  | [], _ => []
  | .left :: script, items => items.head? :: takeEnds script items.tail
  | .right :: script, items => items.getLast? :: takeEnds script items.dropLast

namespace Walk

variable {α κ β γ : Type} {key : α → κ}

/-- Asks for items one after the other, each on the side named. -/
def follow : List Side → Walk key β → Except Fault (List (Option β) × Walk key β)
  | [], w => return ([], w)
  | side :: script, w => do
    let (item, w) ← w.advance side
    let (items, w) ← w.follow script
    return (item :: items, w)

variable {w : Walk key β} {before between after rest : List (Slot × α)} {o : Outside α} {e : Slot × α}

/-- What is left of a walk over a tree is the middle one of three parts of its
    entries. Each step takes the outermost entry off that part, on its own side,
    until nothing is left. -/
structure Covers (w : Walk key β) (before between after : List (Slot × α)) (o : Outside α) : Prop where
  tree : w.tree.Represents (before ++ between ++ after) o
  front : w.front = (between ++ after).head?.map Prod.fst
  back : w.back = after.head?.map Prod.fst
  remaining : ∀ n, w.remaining = some n → n = between.length

namespace Covers

theorem map (h : w.Covers before between after o) (f : β → γ) : (w.map f).Covers before between after o :=
  ⟨h.tree, h.front, h.back, h.remaining⟩

theorem front_eq_back_iff (h : w.Covers before between after o) : w.front = w.back ↔ between = [] := by
  rw [h.front, h.back]
  cases between with
  | nil => simp
  | cons e rest =>
    have hnodup := h.tree.store.nodup
    cases after with
    | nil => simp
    | cons last more =>
      have hne : e.1 ≠ last.1 := by
        intro heq
        simp [List.nodup_append, heq] at hnodup
      simpa using hne

theorem countDown (h : w.Covers before between after o) (hne : between ≠ []) :
    ∃ remaining, countDown w.remaining = .ok remaining ∧ (∀ n, remaining = some n → n = between.length - 1) ∧
      remaining.isSome = w.remaining.isSome := by
  cases hr : w.remaining with
  | none => exact ⟨none, rfl, nofun, rfl⟩
  | some n =>
    have hn := h.remaining n hr
    have hpos := List.length_pos_iff.mpr hne
    refine ⟨some (n - 1), ?_, ?_, rfl⟩
    · rw [Walk.countDown, checkedSub, if_pos (by omega)]
      rfl
    · rintro m ⟨rfl⟩
      omega

theorem advance_nil (h : w.Covers before [] after o) (side : Side) : w.advance side = .ok (none, w) := by
  have hmeet := h.front_eq_back_iff.mpr rfl
  cases side <;> simp [advance, forward, backward, hmeet]

theorem forward (h : w.Covers before (e :: rest) after o) :
    ∃ w' : Walk key β, w.forward = .ok (some (w.view e.2), w') ∧ w'.Covers (before ++ [e]) rest after o ∧
      w'.view = w.view ∧ w'.tree = w.tree ∧ w'.remaining.isSome = w.remaining.isSome := by
  have hne : ¬ w.front = w.back := by simp [h.front_eq_back_iff]
  have hfront : w.front = some e.1 := by simp [h.front]
  have hsplit : w.tree.Represents (before ++ e :: (rest ++ after)) o := by simpa using h.tree
  have hitem : w.tree.itemAt e.1 = .ok e.2 := hsplit.itemAt (by simp)
  obtain ⟨remaining, hcount, hremaining, hsome⟩ := h.countDown (by simp)
  refine ⟨{ w with front := (rest ++ after).head?.map Prod.fst, remaining }, ?_, ?_, rfl, rfl, hsome⟩
  · rw [Walk.forward, if_neg hne, hfront]
    simp [hsplit.successor, hcount, Tree.dereference, hitem]
  · exact ⟨by simpa using h.tree, rfl, h.back, hremaining⟩

theorem backward (h : w.Covers before (rest ++ [e]) after o) :
    ∃ w' : Walk key β, w.backward = .ok (some (w.view e.2), w') ∧ w'.Covers before rest (e :: after) o ∧
      w'.view = w.view ∧ w'.tree = w.tree ∧ w'.remaining.isSome = w.remaining.isSome := by
  have hne : ¬ w.front = w.back := by simp [h.front_eq_back_iff]
  have hsplit : w.tree.Represents ((before ++ rest) ++ e :: after) o := by simpa using h.tree
  have hitem : w.tree.itemAt e.1 = .ok e.2 := hsplit.itemAt (by simp)
  have hprev : w.tree.predecessor w.back = .ok e.1 := by
    rw [h.back]
    cases after with
    | nil => exact hsplit.predecessor_end
    | cons last more => exact hsplit.predecessor
  obtain ⟨remaining, hcount, hremaining, hsome⟩ := h.countDown (by simp)
  refine ⟨{ w with back := some e.1, remaining }, ?_, ?_, rfl, rfl, hsome⟩
  · rw [Walk.backward, if_neg hne]
    simp [hprev, hcount, hitem]
  · refine ⟨by simpa using h.tree, by simp [h.front], rfl, ?_⟩
    intro n hn
    rw [hremaining n hn]
    simp

theorem bounds_counted (h : w.Covers before between after o) (hcounts : w.remaining.isSome = true) :
    w.bounds = (between.length, between.length) := by
  obtain ⟨n, hn⟩ := Option.isSome_iff_exists.mp hcounts
  obtain rfl := h.remaining n hn
  simp [bounds, hn]

/-- A walk that does not count gives bounds, and no item at all as the lower one
    only where none is left. -/
theorem bounds_uncounted (h : w.Covers before between after o) (hcounts : w.remaining.isSome = false) :
    w.bounds.1 ≤ between.length ∧ between.length ≤ w.bounds.2 ∧ (w.bounds.1 = 0 → between = []) := by
  have hnone : w.remaining = none := Option.isSome_eq_false_iff.mp hcounts |> Option.isNone_iff_eq_none.mp
  have hsize := h.tree.size
  rw [List.length_append, List.length_append] at hsize
  rw [bounds, hnone]
  by_cases hmeet : w.front = w.back
  · obtain rfl := h.front_eq_back_iff.mp hmeet
    simp [hmeet]
  · have hne : between ≠ [] := fun hnil => hmeet (h.front_eq_back_iff.mpr hnil)
    have hpos := List.length_pos_iff.mpr hne
    simp only [if_neg hmeet]
    omega

/-- Every script is followed to its end, and gives what the list of the items
    covered gives. -/
theorem follow_eq (h : w.Covers before between after o) (script : List Side) :
    ∃ w', w.follow script = .ok (takeEnds script (between.map (w.view ∘ Prod.snd)), w') := by
  induction script generalizing w before between after with
  | nil => exact ⟨w, rfl⟩
  | cons side script ih =>
    cases side with
    | left =>
      cases between with
      | nil =>
        obtain ⟨w', hrest⟩ := ih h
        exact ⟨w', by simp [Walk.follow, h.advance_nil, hrest, takeEnds]⟩
      | cons e rest =>
        obtain ⟨w₁, hrun, hcovers, hview, _⟩ := h.forward
        obtain ⟨w', hrest⟩ := ih hcovers
        exact ⟨w', by simp [Walk.follow, Walk.advance, hrun, hrest, hview, takeEnds]⟩
    | right =>
      cases between using List.reverseRecOn with
      | nil =>
        obtain ⟨w', hrest⟩ := ih h
        exact ⟨w', by simp [Walk.follow, h.advance_nil, hrest, takeEnds]⟩
      | append_singleton rest e =>
        obtain ⟨w₁, hrun, hcovers, hview, _⟩ := h.backward
        obtain ⟨w', hrest⟩ := ih hcovers
        exact ⟨w', by simp [Walk.follow, Walk.advance, hrun, hrest, hview, takeEnds]⟩

theorem follow (h : w.Covers before between after o) (script : List Side) :
    ∃ result, w.follow script = .ok result := by
  obtain ⟨w', hrun⟩ := h.follow_eq script
  exact ⟨_, hrun⟩

end Covers

end Walk

namespace Tree

variable {α κ : Type} {key : α → κ} {t : Tree key} {entries : List (Slot × α)} {o : Outside α}

theorem Represents.walk (h : t.Represents entries o) : t.walk.Covers [] entries [] o where
  tree := by rwa [List.nil_append, List.append_nil]
  front := by rw [List.append_nil]; exact h.leftmost
  back := rfl
  remaining := by
    rintro n ⟨rfl⟩
    exact h.size

end Tree

namespace Drain

open RedBlack.Action

variable {α κ : Type} {key : α → κ} {d : Drain key} {entries : List (Slot × α)} {o : Outside α}

/-- Takes items out one after the other, each on the side named. -/
def follow : List Side → Action (Drain key) κ (List (Option α))
  | [] => return []
  | side :: script => do
    let item ← advance side
    return item :: (← follow script)

theorem advance_spec (h : d.tree.Represents entries o) (side : Side) :
    (advance side).Yields d fun answer d' => d'.tree.Continues d.tree ∧
      match side with
      | .left => answer = entries.head?.map Prod.snd ∧ d'.tree.Represents entries.tail o
      | .right => answer = entries.getLast?.map Prod.snd ∧ d'.tree.Represents entries.dropLast o := by
  cases side with
  | left =>
    rw [advance, onTree, Yields, wp_within]
    refine h.popFirst.mono ?_
    rintro answer u ⟨hanswer, hu, hrep⟩
    exact ⟨hu, hanswer, hrep⟩
  | right =>
    rw [advance, onTree, Yields, wp_within]
    refine h.popLast.mono ?_
    rintro answer u ⟨hanswer, hu, hrep⟩
    exact ⟨hu, hanswer, hrep⟩

theorem follow_spec (h : d.tree.Represents entries o) (script : List Side) :
    (follow script).Yields d fun _ d' => d'.tree.Continues d.tree ∧ ∃ left, d'.tree.Represents left o := by
  induction script generalizing d entries with
  | nil => exact ⟨.refl _, entries, h⟩
  | cons side script ih =>
    rw [follow, Yields, wp_bind]
    refine (advance_spec h side).mono ?_
    rintro item d₁ ⟨hd₁, hstep⟩
    have hrep : ∃ left, d₁.tree.Represents left o := by
      cases side with
      | left => exact ⟨_, hstep.2⟩
      | right => exact ⟨_, hstep.2⟩
    obtain ⟨left, hleft⟩ := hrep
    rw [wp_bind]
    refine (ih hleft).mono ?_
    rintro items d₂ ⟨hd₂, hrest⟩
    exact ⟨hd₂.trans hd₁, hrest⟩

end Drain

end RedBlack
