import RedBlack.Proofs.LivePositions
import RedBlack.Proofs.Shape.Loops

namespace RedBlack

open RedBlack.Path

namespace Shape

variable {t : Shape} {slot : Slot} {place : Place}

/-- How the repair ends after a node was hung into a place. The path leads to
    the place, and the height of the tree bounds the rounds. -/
structure GrowthEnds (t : Shape) (slot : Slot) (place : Place) (p : Path) (r : Repaired) : Prop where
  whole : p.fill .nil = t
  leads : p.place = place
  result : t.attach slot place = .ok r
  /-- The loop starts from the new leaf. -/
  ends : redLoop.EndsWith p (leaf .red slot) r
  /-- It climbs two levels a round. -/
  rounds : 2 * r.rounds.length ≤ t.height
  rotations : r.rotations ≤ 2

theorem exists_growthEnds (slot : Slot) (hshape : t.IsRedBlack) (hnodup : t.slots.Nodup) (hplace : t.Free place) :
    ∃ p r, t.GrowthEnds slot place p r := by
  obtain ⟨p, rfl, rfl⟩ := exists_path_of_free hplace
  obtain ⟨r, hresult, _, _⟩ := attach_spec slot hshape hnodup
  have hrepair : p.repairRed (leaf .red slot) = .ok r := by rw [← attach_place slot hnodup, hresult]
  obtain ⟨hrounds, hclimbs⟩ := repairRed_climbs hrepair
  have hlength := p.length_add_height_le .nil
  exact ⟨p, r, rfl, rfl, hresult, repairRed_follows.endsWith hrepair, by omega, hclimbs.rotations⟩

/-- How the repair ends after a node was taken out. The path leads to the gap,
    where a node of the colour `removed` was, and `x` is what hangs there now.
    The height of the tree bounds the rounds. -/
structure PruningEnds (t : Shape) (slot : Slot) (p : Path) (removed : Color) (x : Shape) (r : Repaired) : Prop where
  slots : (p.fill x).slots = t.slots.erase slot
  closes : t.unlink slot = p.closeGap removed x
  result : t.unlink slot = .ok r
  /-- There is a lack only where the node was black; the loop starts from what
      hangs there. -/
  ends : removed = .black → lackLoop.EndsWith p x r
  spared : removed = .red → r = { shape := p.fill x }
  rounds : r.rounds.length < t.height
  rotations : r.rotations ≤ 3
  /-- A red sibling is raised in the last round, if at all. -/
  raised : ∀ round ∈ r.rounds.dropLast, round.raised = false
  raised_once : r.rounds.countP (·.raised) ≤ 1

theorem exists_pruningEnds (hshape : t.IsRedBlack) (hnodup : t.slots.Nodup) (hslot : slot ∈ t.slots) :
    ∃ p removed x r, t.PruningEnds slot p removed x r := by
  obtain ⟨before, after, hslots⟩ := List.append_of_mem hslot
  obtain ⟨p, removed, x, hgap, hrest⟩ := exists_leavesGap hshape hnodup hslots
  obtain ⟨r, hresult, _, _⟩ := hgap.repairedTo
  have hclose : p.closeGap removed x = .ok r := by rw [← hgap.unlinks, hresult]
  have hslots : (p.fill x).slots = t.slots.erase slot := by
    rw [hslots] at hnodup
    have hbefore : slot ∉ before := fun h => (List.nodup_append.mp hnodup).2.2 slot h slot List.mem_cons_self rfl
    rw [hrest, hslots, List.erase_append_right _ hbefore, List.erase_cons_head]
  have hends : removed = .black → lackLoop.EndsWith p x r := by
    rintro rfl
    exact repairShort_follows.endsWith hclose
  have hspared : removed = .red → r = { shape := p.fill x } := by
    rintro rfl
    exact (Except.ok.inj hclose).symm
  obtain ⟨hrounds, hclimbs⟩ := closeGap_climbs hclose
  have hraised : ∀ round ∈ r.rounds.dropLast, round.raised = false := by
    intro round hround
    rw [hclimbs.idle round hround]
  exact ⟨p, removed, x, r, hslots, hgap.unlinks, hresult, hends, hspared, Nat.lt_of_le_of_lt hrounds hgap.depth,
    hclimbs.rotations, hraised, hclimbs.countP_raised_le⟩

end Shape

namespace Tree

variable {α κ ε : Type} {key : α → κ} {t : Tree key}

/-- In every tree that comes about the repair ends after every insertion and
    every removal, within as many rounds as the tree is high. It takes two
    rotations at most after an insertion and three after a removal, where a red
    sibling is raised once at most, in the last round. -/
theorem repairs_end_within_height {f : Forest key} (hf : f.Reachable fun f (c : Forest.Command α κ ε) => c.OnLive f)
    (ht : t ∈ f.trees) :
    (∀ slot place, t.shape.Free place → ∃ p r, t.shape.GrowthEnds slot place p r) ∧
      ∀ slot ∈ t.shape.slots, ∃ p removed x r, t.shape.PruningEnds slot p removed x r := by
  obtain ⟨entries, o, h⟩ := hf.represents_onLive ht
  refine ⟨?_, ?_⟩
  · exact fun slot place => Shape.exists_growthEnds slot h.shape h.nodup
  · exact fun slot => Shape.exists_pruningEnds h.shape h.nodup

/-- In a tree of three items a new leaf has a red parent and a red uncle, so
    that one round is enough. -/
theorem repairs_end_within_height_three :
    ∃ t : Tree (id : Nat → Nat), t.items = .ok [1, 2, 3] ∧
      (∃ p r, t.shape.GrowthEnds 3 (.under 2 .right) p r ∧ redLoop.run 1 p (.leaf .red 3) = .ok (some r)) ∧
      ∃ p removed x r, t.shape.PruningEnds 1 p removed x r ∧ r.rounds.length ≤ 1 := by
  have h₀ : Forest.Reachable (fun f (c : Forest.Command Nat Nat Empty) => c.OnLive f) (.empty (id : Nat → Nat)) :=
    .empty
  have h₁ := h₀.step (c := .plant (fun a b => decide (a < b)) (.arena .empty)) Arena.sound_empty
  have h₂ := h₁.step (c := .onTree 0 (.insertEqual 1)) ⟨_, rfl, nofun⟩
  have h₃ := h₂.step (c := .onTree 0 (.insertEqual 2)) ⟨_, rfl, nofun⟩
  have h₄ := h₃.step (c := .onTree 0 (.insertEqual 3)) ⟨_, rfl, nofun⟩
  obtain ⟨hgrowth, hpruning⟩ := repairs_end_within_height h₄ (Array.mem_of_getElem? (i := 0) rfl)
  obtain ⟨p, r, hends⟩ := hgrowth 3 (.under 2 .right) rfl
  obtain ⟨q, removed, x, s, hgone⟩ := hpruning 1 (by decide)
  have hrounds : 2 * r.rounds.length ≤ 2 := hends.rounds
  refine ⟨_, rfl, ⟨p, r, hends, ?_⟩, q, removed, x, s, hgone, Nat.le_of_lt_succ hgone.rounds⟩
  rw [hends.ends 1, if_pos (by omega)]

end Tree

end RedBlack
