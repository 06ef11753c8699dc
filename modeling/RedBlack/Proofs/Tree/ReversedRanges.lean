import RedBlack.Proofs.Stopping
import RedBlack.Proofs.Tree.RangeRemoval

namespace RedBlack

namespace Tree

open RedBlack.Action

variable {α κ ε : Type} {key : α → κ} {t : Tree key} {entries : List (Slot × α)} {o : Outside α}
  {first last : Position} {i : Nat}

/-- What a range that runs backwards comes to. It is erased item by item, and
    that its end lies before its start is noticed only where the tree ends: the
    entries from its start on, which has the index `i`, are gone by then. -/
structure StopsErasing (t : Tree key) (entries : List (Slot × α)) (i : Nat) (first last : Position) : Prop where
  inside : i ≤ entries.length
  begins : first = t.nth i
  answer : ((eraseRange first last).run t).answer = .error .reversedRange
  left : t.ErasedBetween entries i entries.length ((eraseRange first last).run t).state

namespace Represents

theorem stopsErasing (h : t.Represents entries o) (hbackwards : t.Precedes last first) :
    ∃ i, t.StopsErasing entries i first last := by
  obtain ⟨hrange, hne⟩ := hbackwards
  obtain ⟨_, hanswer, rfl, hu, before, after, rfl, hslot, hrep⟩ := stopped_of_wp (h.eraseRange_reversed hrange hne)
  have hbegins : first = t.nth before.length := by
    rw [h.nth_length, ← hslot, position, ← hrange.2.1]
  rw [← List.append_nil (before ++ after)] at h
  rw [← List.append_nil before] at hrep
  have hleft := h.erasedBetween hu hrep
  rw [List.append_nil] at hleft
  exact ⟨before.length, by simp, hbegins, hanswer, hleft⟩

/-- Everything is still there only if the range started behind the last item. -/
theorem listing_eq_iff (h : t.Represents entries o) (hstops : t.StopsErasing entries i first last) :
    ((Tree.eraseRange first last).run t).state.listing = t.listing ↔ first = t.finish := by
  have hlength : entries.take i = entries ↔ i = entries.length := by
    constructor
    · intro hall
      have hcount := congrArg List.length hall
      rw [List.length_take, Nat.min_eq_left hstops.inside] at hcount
      exact hcount
    · rintro rfl
      exact List.take_length
  rw [hstops.left.listing, h.listing, List.drop_length, List.append_nil, Except.ok.injEq, hlength, hstops.begins,
    h.finish_eq_nth, h.nth_inj hstops.inside (Nat.le_refl _)]

end Represents

/-- Erasing a range stops with the fault of its own check exactly where the end
    of the range lies strictly before its start. The tree that is left then has
    only the entries before that start, each where it was; it has lost none only
    if the start was the end of the tree, so that there was nothing to erase
    before the check. -/
theorem eraseRange_stops_with_front {f : Forest key} (hf : f.Reachable fun f (c : Forest.Command α κ ε) => c.OnLive f)
    (ht : t ∈ f.trees) :
    ∃ entries, t.listing = .ok entries ∧ ∀ first last, t.LiveOrEnd first → t.LiveOrEnd last →
      (((eraseRange first last).run t).answer = .error .reversedRange ↔ t.Precedes last first) ∧
      (((eraseRange first last).run t).answer = .error .reversedRange →
        (∃ i, t.StopsErasing entries i first last) ∧
          (((eraseRange first last).run t).state.listing = t.listing ↔ first = t.finish)) := by
  obtain ⟨entries, o, h⟩ := hf.represents_onLive ht
  refine ⟨entries, h.listing, ?_⟩
  intro first last hfirst hlast
  have hstops : ((eraseRange first last).run t).answer = .error .reversedRange ↔ t.Precedes last first := by
    rw [h.eraseRange_eq_error_iff hfirst hlast]
    exact and_iff_left rfl
  refine ⟨hstops, ?_⟩
  intro hanswer
  obtain ⟨i, herased⟩ := h.stopsErasing (hstops.mp hanswer)
  exact ⟨⟨i, herased⟩, h.listing_eq_iff herased⟩

/-- In a tree of 1, 2 and 3 a range from the end back to the first item stops
    before anything is erased. -/
theorem eraseRange_stops_with_front_three :
    ∃ t : Tree (id : Nat → Nat), t.items = .ok [1, 2, 3] ∧
      ((eraseRange ⟨none, 1⟩ ⟨some 0, 1⟩).run t).answer = .error .reversedRange ∧
      ((eraseRange ⟨none, 1⟩ ⟨some 0, 1⟩).run t).state.listing = t.listing := by
  have h₀ : Forest.Reachable (fun f (c : Forest.Command Nat Nat Empty) => c.OnLive f) (.empty (id : Nat → Nat)) :=
    .empty
  have h₁ := h₀.step (c := .plant (fun a b => decide (a < b)) (.arena .empty)) Arena.sound_empty
  have h₂ := h₁.step (c := .onTree 0 (.insertEqual 1)) ⟨_, rfl, nofun⟩
  have h₃ := h₂.step (c := .onTree 0 (.insertEqual 2)) ⟨_, rfl, nofun⟩
  have h₄ := h₃.step (c := .onTree 0 (.insertEqual 3)) ⟨_, rfl, nofun⟩
  obtain ⟨entries, _, hstops⟩ := eraseRange_stops_with_front h₄ (Array.mem_of_getElem? (i := 0) rfl)
  obtain ⟨hwhen, hleft⟩ := hstops ⟨none, 1⟩ ⟨some 0, 1⟩ ⟨rfl, nofun⟩ ⟨rfl, by rintro slot ⟨rfl⟩; decide +kernel⟩
  have hanswer := hwhen.mpr ⟨⟨rfl, rfl, [], [0, 1, 2], [], rfl, rfl, rfl⟩, by decide⟩
  exact ⟨_, rfl, hanswer, (hleft hanswer).2.mpr rfl⟩

/-- In a tree of 1, 2 and 3 a range from the second item back to the first one
    stops with the fault of its check, and the items 2 and 3 are gone by
    then. -/
theorem eraseRange_loses_items :
    ∃ (f : Forest (id : Nat → Nat)) (t : Tree (id : Nat → Nat)),
      (f.Reachable fun f (c : Forest.Command Nat Nat Empty) => c.OnLive f) ∧ t ∈ f.trees ∧
      t.LiveOrEnd ⟨some 1, 1⟩ ∧ t.LiveOrEnd ⟨some 0, 1⟩ ∧ t.items = .ok [1, 2, 3] ∧
      ((eraseRange ⟨some 1, 1⟩ ⟨some 0, 1⟩).run t).answer = .error .reversedRange ∧
      ((eraseRange ⟨some 1, 1⟩ ⟨some 0, 1⟩).run t).state.items = .ok [1] := by
  have h₀ : Forest.Reachable (fun f (c : Forest.Command Nat Nat Empty) => c.OnLive f) (.empty (id : Nat → Nat)) :=
    .empty
  have h₁ := h₀.step (c := .plant (fun a b => decide (a < b)) (.arena .empty)) Arena.sound_empty
  have h₂ := h₁.step (c := .onTree 0 (.insertEqual 1)) ⟨_, rfl, nofun⟩
  have h₃ := h₂.step (c := .onTree 0 (.insertEqual 2)) ⟨_, rfl, nofun⟩
  have h₄ := h₃.step (c := .onTree 0 (.insertEqual 3)) ⟨_, rfl, nofun⟩
  exact ⟨_, _, h₄, Array.mem_of_getElem? (i := 0) rfl, ⟨rfl, by rintro slot ⟨rfl⟩; decide +kernel⟩,
    ⟨rfl, by rintro slot ⟨rfl⟩; decide +kernel⟩, rfl, by decide +kernel, by decide +kernel⟩

end Tree

end RedBlack
