import RedBlack.Proofs.LivePositions
import RedBlack.Proofs.Tree.Indices

namespace RedBlack

/-- The positions met from the one given on, when a step is made so many
    times. -/
def Position.trace (step : Position → Except Fault Position) : Nat → Position → Except Fault (List Position)
  | 0, p => return [p]
  | steps + 1, p => do
    let q ← step p
    return p :: (← trace step steps q)

namespace Tree

variable {α κ ε : Type} {key : α → κ} {t : Tree key} {entries before after : List (Slot × α)} {o : Outside α}
  {p : Position} {i n : Nat}

/-- The positions of the items, in order. -/
def itemPositions (t : Tree key) : List Position :=
  t.shape.slots.map fun slot => t.position (some slot)

namespace Represents

/-- An entry cuts the others in those before it and those after it, and its
    index is the number of those before. -/
theorem exists_nth (h : t.Represents entries o) (hi : i < entries.length) :
    ∃ before e after, entries = before ++ e :: after ∧ before.length = i ∧ t.nth i = t.position (some e.1) := by
  refine ⟨entries.take i, entries[i], entries.drop (i + 1), ?_, ?_, ?_⟩
  · rw [← List.drop_eq_getElem_cons hi, List.take_append_drop]
  · rw [List.length_take]
    omega
  · rw [h.nth_eq, List.getElem?_eq_getElem hi, Option.map_some]

theorem next_nth (h : t.Represents entries o) (hi : i < entries.length) : t.next (t.nth i) = .ok (t.nth (i + 1)) := by
  obtain ⟨before, e, after, rfl, rfl, hnth⟩ := h.exists_nth hi
  have hnext : t.nth (before.length + 1) = t.position (after.head?.map Prod.fst) := by
    have hsplit : t.Represents ((before ++ [e]) ++ after) o := by simpa using h
    simpa using hsplit.nth_length
  rw [hnth, hnext, next, own_position, ok_bind, h.successor]
  rfl

/-- A step back leads to the index before. From behind the last entry it starts
    at the end and reads the last item kept at hand; elsewhere it follows the
    links. -/
theorem prev_nth (h : t.Represents entries o) (hi : i < entries.length) : t.prev (t.nth (i + 1)) = .ok (t.nth i) := by
  obtain ⟨before, e, after, rfl, rfl, hnth⟩ := h.exists_nth hi
  have hsplit : t.Represents ((before ++ [e]) ++ after) o := by simpa using h
  have hfrom : t.nth (before.length + 1) = t.position (after.head?.map Prod.fst) := by
    simpa using hsplit.nth_length
  have hbefore : t.predecessor (after.head?.map Prod.fst) = .ok e.1 := by
    cases after with
    | nil => exact h.predecessor_end
    | cons d rest => exact h.predecessor
  rw [hnth, hfrom, prev, own_position, ok_bind, hbefore]
  rfl

theorem trace_next (h : t.Represents entries o) (hi : i + n ≤ entries.length) :
    Position.trace t.next n (t.nth i) = .ok ((List.range' i (n + 1)).map t.nth) := by
  induction n generalizing i with
  | zero => rfl
  | succ n ih =>
    rw [Position.trace, h.next_nth (by omega), ok_bind, ih (by omega), List.range'_succ (n := n + 1)]
    rfl

theorem trace_prev (h : t.Represents entries o) (hn : n ≤ entries.length) :
    Position.trace t.prev n (t.nth n) = .ok ((List.range (n + 1)).map t.nth).reverse := by
  induction n with
  | zero => rfl
  | succ n ih =>
    rw [Position.trace, h.prev_nth hn, ok_bind, ih (by omega), List.range_succ (n := n + 1), List.map_append,
      List.reverse_append]
    rfl

/-- In the order of their indices, the positions of a tree are those of its
    items and then the end. -/
theorem map_nth_range (h : t.Represents entries o) :
    (List.range (entries.length + 1)).map t.nth = t.itemPositions ++ [t.finish] := by
  have hitems : (List.range entries.length).map t.nth = t.itemPositions := by
    apply List.ext_getElem
    · simp [itemPositions, h.slots]
    · intro i _ hi
      have hi' : i < t.shape.slots.length := by simpa [itemPositions] using hi
      simp [itemPositions, nth, List.getElem?_eq_getElem hi']
  rw [List.range_succ, List.map_append, hitems, h.finish_eq_nth]
  rfl

theorem itemPositions_nodup (h : t.Represents entries o) : t.itemPositions.Nodup := by
  apply h.nodup.map
  intro a b hab
  exact Option.some.inj (congrArg Position.slot hab)

theorem next_prev (h : t.Represents entries o) (hp : t.LiveOrEnd p) (hne : p ≠ t.start) :
    ∃ q, t.prev p = .ok q ∧ t.LiveOrEnd q ∧ t.next q = .ok p := by
  obtain ⟨i, hi, rfl⟩ := h.liveOrEnd_iff.mp hp
  cases i with
  | zero => exact absurd h.start_eq_nth.symm hne
  | succ i => exact ⟨t.nth i, h.prev_nth hi, h.liveOrEnd_iff.mpr ⟨i, by omega, rfl⟩, h.next_nth hi⟩

theorem prev_next (h : t.Represents entries o) (hp : t.LiveOrEnd p) (hne : p ≠ t.finish) :
    ∃ q, t.next p = .ok q ∧ t.LiveOrEnd q ∧ t.prev q = .ok p := by
  obtain ⟨i, hi, rfl⟩ := h.liveOrEnd_iff.mp hp
  have hlt : i < entries.length := by
    obtain hlt | rfl := Nat.lt_or_eq_of_le hi
    · exact hlt
    · exact absurd h.finish_eq_nth.symm hne
  exact ⟨t.nth (i + 1), h.next_nth hlt, h.liveOrEnd_iff.mpr ⟨i + 1, hlt, rfl⟩, h.prev_nth hlt⟩

end Represents

/-- From the first position on, as many steps forward as there are items meet
    every item once, in order, and then the end; from the end on, so many steps
    back meet the same positions in reverse and come to the first one. At every
    position but the first a step back can be undone by a step forward, and at
    every position but the end a step forward by a step back. -/
theorem steps_inverse_walks {f : Forest key} (hf : f.Reachable fun f (c : Forest.Command α κ ε) => c.OnLive f)
    (ht : t ∈ f.trees) :
    t.itemPositions.length = t.size ∧ t.itemPositions.Nodup ∧
      (t.itemPositions ++ [t.finish]).head? = some t.start ∧
      Position.trace t.next t.size t.start = .ok (t.itemPositions ++ [t.finish]) ∧
      Position.trace t.prev t.size t.finish = .ok (t.itemPositions ++ [t.finish]).reverse ∧
      (∀ p, t.LiveOrEnd p → p ≠ t.start → ∃ q, t.prev p = .ok q ∧ t.LiveOrEnd q ∧ t.next q = .ok p) ∧
      ∀ p, t.LiveOrEnd p → p ≠ t.finish → ∃ q, t.next p = .ok q ∧ t.LiveOrEnd q ∧ t.prev q = .ok p := by
  obtain ⟨entries, o, h⟩ := hf.represents_onLive ht
  refine ⟨?_, h.itemPositions_nodup, ?_, ?_, ?_, fun _ => h.next_prev, fun _ => h.prev_next⟩
  · rw [itemPositions, List.length_map, h.slots, List.length_map, h.size]
  · rw [← h.map_nth_range, List.head?_map, List.head?_range, h.start_eq_nth]
    rfl
  · rw [h.start_eq_nth, h.size, h.trace_next (by omega), ← List.range_eq_range', h.map_nth_range]
  · rw [h.finish_eq_nth, h.size, h.trace_prev (Nat.le_refl _), h.map_nth_range, ← h.finish_eq_nth]

/-- A tree of 1, 2, 3 and 4 whose items lie in other slots than their order
    says: the fourth step forward climbs from the last item past the root to the
    end, and the first step back from there goes to that item at once. -/
theorem steps_inverse_walks_four :
    ∃ t : Tree (id : Nat → Nat), t.shape.slots = [1, 0, 3, 2] ∧ t.size = 4 ∧
      Position.trace t.next 4 t.start = .ok
        [t.position (some 1), t.position (some 0), t.position (some 3), t.position (some 2), t.finish] ∧
      Position.trace t.prev 4 t.finish = .ok
        [t.finish, t.position (some 2), t.position (some 3), t.position (some 0), t.position (some 1)] ∧
      ∃ q, t.next (t.position (some 2)) = .ok q ∧ t.LiveOrEnd q ∧ t.prev q = .ok (t.position (some 2)) := by
  have h₀ : Forest.Reachable (fun f (c : Forest.Command Nat Nat Empty) => c.OnLive f) (.empty (id : Nat → Nat)) :=
    .empty
  have h₁ := h₀.step (c := .plant (fun a b => decide (a < b)) (.arena .empty)) Arena.sound_empty
  have h₂ := h₁.step (c := .onTree 0 (.insertEqual 2)) ⟨_, rfl, nofun⟩
  have h₃ := h₂.step (c := .onTree 0 (.insertEqual 1)) ⟨_, rfl, nofun⟩
  have h₄ := h₃.step (c := .onTree 0 (.insertEqual 4)) ⟨_, rfl, nofun⟩
  have h₅ := h₄.step (c := .onTree 0 (.insertEqual 3)) ⟨_, rfl, nofun⟩
  obtain ⟨_, _, _, hnext, hprev, _, hback⟩ := steps_inverse_walks h₅ (Array.mem_of_getElem? (i := 0) rfl)
  exact ⟨_, rfl, rfl, hnext, hprev, hback _ ⟨rfl, by decide +kernel⟩ nofun⟩

end Tree

end RedBlack
