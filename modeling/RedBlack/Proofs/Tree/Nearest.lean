import RedBlack.Proofs.Tree.Granted

namespace RedBlack

variable {α κ : Type} {less : κ → κ → Bool} {key : α → κ} {k : κ} {bound : Bound}
  {entries front back before after : List (Slot × α)} {new : Slot × α} {i j h : Nat}

/-- How many entries lie before the place for a key. -/
def rank (bound : Bound) (less : κ → κ → Bool) (key : α → κ) (k : κ) (entries : List (Slot × α)) : Nat :=
  entries.countP fun e => bound.side less k (key e.2) = .right

theorem rank_lower : rank .lower less key k entries = entries.countP fun e => less (key e.2) k := by
  apply List.countP_congr
  intro e _
  simp [Bound.side]

theorem rank_upper : rank .upper less key k entries = entries.countP fun e => !less k (key e.2) := by
  apply List.countP_congr
  intro e _
  simp [Bound.side]

theorem rank_lower_le_upper (hless : StrictWeak less) :
    rank .lower less key k entries ≤ rank .upper less key k entries := by
  rw [rank_lower, rank_upper]
  apply List.countP_mono_left
  intro e _ hlt
  simp [hless.asymm hlt]

theorem length_le_rank_of_all (hfront : ∀ e ∈ front, bound.side less k (key e.2) = .right) :
    front.length ≤ rank bound less key k (front ++ back) := by
  have hall : rank bound less key k front = front.length := by
    apply List.countP_eq_length.mpr
    intro e he
    simpa using hfront e he
  rw [rank, List.countP_append]
  rw [rank] at hall
  omega

theorem rank_le_length_of_all (hback : ∀ e ∈ back, bound.side less k (key e.2) = .left) :
    rank bound less key k (front ++ back) ≤ front.length := by
  have hnone : rank bound less key k back = 0 := by
    apply List.countP_eq_zero.mpr
    intro e he
    simp [hback e he]
  have hle : rank bound less key k front ≤ front.length := List.countP_le_length
  rw [rank] at hnone hle
  rw [rank, List.countP_append]
  omega

namespace Sorted

/-- Up to an entry behind which the place for the key lies, all entries lie
    before that place. -/
theorem length_le_rank (hless : StrictWeak less) (hsorted : Sorted less key (front ++ back)) (bound : Bound) (k : κ)
    (hlast : ∀ a ∈ front.getLast?, bound.side less k (key a.2) = .right) :
    front.length ≤ rank bound less key k (front ++ back) :=
  length_le_rank_of_all fun _ he =>
    right_of_getLast? hless (hsorted.sublist (List.sublist_append_left _ _)) bound k hlast he

/-- From an entry on in front of which the place for the key lies, no entries
    lie before that place. -/
theorem rank_le_length (hless : StrictWeak less) (hsorted : Sorted less key (front ++ back)) (bound : Bound) (k : κ)
    (hhead : ∀ b ∈ back.head?, bound.side less k (key b.2) = .left) :
    rank bound less key k (front ++ back) ≤ front.length :=
  rank_le_length_of_all fun _ he =>
    left_of_head? hless (hsorted.sublist (List.sublist_append_right _ _)) bound k hhead he

theorem insertIdx_iff (hless : StrictWeak less) (hsorted : Sorted less key entries) (hj : j ≤ entries.length) :
    Sorted less key (entries.insertIdx j new) ↔
      rank .lower less key (key new.2) entries ≤ j ∧ j ≤ rank .upper less key (key new.2) entries := by
  obtain ⟨front, back, rfl, rfl⟩ : ∃ front back, entries = front ++ back ∧ front.length = j :=
    ⟨entries.take j, entries.drop j, by simp, by simp [hj]⟩
  rw [insertIdx_length]
  constructor
  · intro hnew
    obtain ⟨_, hback, hcross⟩ := List.pairwise_append.mp hnew
    constructor
    · apply rank_le_length_of_all
      intro e he
      simpa [Bound.side] using (List.pairwise_cons.mp hback).1 e he
    · apply length_le_rank_of_all
      intro e he
      simpa [Bound.side] using hcross e he new List.mem_cons_self
  · rintro ⟨hlower, hupper⟩
    refine hsorted.insert hless ?_ ?_
    · intro a ha
      obtain ⟨init, rfl⟩ := List.getLast?_eq_some_iff.mp (Option.mem_def.mp ha)
      by_contra hgreater
      rw [List.append_assoc] at hsorted hupper
      have hle := hsorted.rank_le_length hless .upper (key new.2) (by simpa [Bound.side] using hgreater)
      rw [List.length_append, List.length_singleton] at hupper
      omega
    · intro b hb
      obtain ⟨rest, rfl⟩ := List.head?_eq_some_iff.mp (Option.mem_def.mp hb)
      by_contra hlesser
      have hsplit : front ++ b :: rest = front ++ [b] ++ rest := by simp
      rw [hsplit] at hsorted hlower
      have hle := hsorted.length_le_rank hless .lower (key new.2) (by simpa [Bound.side] using hlesser)
      rw [List.length_append, List.length_singleton] at hle
      omega

end Sorted

/-- The index next to a given one that is not before any lesser key nor behind
    any greater one. An item keeps the order at the indices from the number of
    lesser keys up to the number of keys that are not greater. -/
def nearestIndex (less : κ → κ → Bool) (key : α → κ) (k : κ) (entries : List (Slot × α)) (h : Nat) : Nat :=
  max (entries.countP fun e => less (key e.2) k) (min h (entries.countP fun e => !less k (key e.2)))

theorem nearestIndex_eq : nearestIndex less key k entries h =
    max (rank .lower less key k entries) (min h (rank .upper less key k entries)) := by
  rw [nearestIndex, rank_lower, rank_upper]

theorem nearestIndex_le (less : κ → κ → Bool) (key : α → κ) (k : κ) (hh : h ≤ entries.length) :
    nearestIndex less key k entries h ≤ entries.length := by
  have hlower : rank .lower less key k entries ≤ entries.length := List.countP_le_length
  rw [nearestIndex_eq]
  omega

theorem Sorted.insertIdx_nearest (hless : StrictWeak less) (hsorted : Sorted less key entries)
    (hh : h ≤ entries.length) (new : Slot × α) :
    Sorted less key (entries.insertIdx (nearestIndex less key (key new.2) entries h) new) := by
  have hle : rank .lower less key (key new.2) entries ≤ rank .upper less key (key new.2) entries :=
    rank_lower_le_upper hless
  rw [hsorted.insertIdx_iff hless (nearestIndex_le less key _ hh), nearestIndex_eq]
  omega

/-- No index at which an item keeps the order is nearer than the nearest one. -/
theorem Sorted.nearestIndex_nearest (hless : StrictWeak less) (hsorted : Sorted less key entries) (new : Slot × α)
    (hj : j ≤ entries.length) (hlegal : Sorted less key (entries.insertIdx j new)) :
    ((h : Int) - nearestIndex less key (key new.2) entries h).natAbs ≤ ((h : Int) - j).natAbs := by
  obtain ⟨hlower, hupper⟩ := (hsorted.insertIdx_iff hless hj).mp hlegal
  rw [nearestIndex_eq]
  omega

namespace Tree

open RedBlack.Action

theorem Points.length_eq (hless : StrictWeak less) (hsorted : Sorted less key (before ++ after))
    (hpoints : Points (bound.side less k) key before after) :
    before.length = rank bound less key k (before ++ after) := by
  have hle := hsorted.length_le_rank hless bound k hpoints.before
  have hge := hsorted.rank_le_length hless bound k hpoints.after
  omega

/-- Whichever way a hint is taken, it leads to the nearest index: to the hint
    itself where that is legal, else to the first legal index behind it or the
    last one before it. -/
theorem HintedCut.length_eq (hless : StrictWeak less) (hsorted : Sorted less key (front ++ back))
    (hsplit : front ++ back = before ++ after) (hcut : HintedCut less key k front back before after) :
    before.length = nearestIndex less key k (front ++ back) front.length := by
  have hle : rank .lower less key k (front ++ back) ≤ rank .upper less key k (front ++ back) :=
    rank_lower_le_upper hless
  rw [nearestIndex_eq]
  cases hcut with
  | here hlast hhead =>
    have hupper := hsorted.length_le_rank hless .upper k (by simpa [Bound.side] using hlast)
    have hlower := hsorted.rank_le_length hless .lower k (by simpa [Bound.side] using hhead)
    omega
  | @next e rest hhint hhead =>
    rw [hsplit] at hsorted hle ⊢
    have hlower := hsorted.length_le_rank hless .lower k (by simpa [Bound.side] using hhint)
    have hupper := hsorted.rank_le_length hless .lower k (by simpa [Bound.side] using hhead)
    rw [List.length_append, List.length_singleton] at hlower hupper ⊢
    omega
  | @lower e rest _ _ hhint hpoints =>
    have hpast : front ++ e :: rest = front ++ [e] ++ rest := by simp
    have hlength := hpoints.length_eq hless (hsplit ▸ hsorted)
    rw [← hsplit] at hlength
    have hbehind := (hpast ▸ hsorted).length_le_rank hless .lower k
      (by simpa [Bound.side] using hhint)
    rw [← hpast, List.length_append, List.length_singleton] at hbehind
    omega
  | upper hmem hhint hpoints =>
    obtain ⟨init, rfl⟩ := List.getLast?_eq_some_iff.mp (Option.mem_def.mp hmem)
    have hlength := hpoints.length_eq hless (hsplit ▸ hsorted)
    rw [← hsplit] at hlength
    rw [List.append_assoc] at hsorted
    have hbefore := hsorted.rank_le_length hless .upper k (by simpa [Bound.side] using hhint)
    rw [← List.append_assoc] at hbefore
    rw [List.length_append, List.length_singleton]
    omega

variable {ε : Type} {t : Tree key} {slot : Slot} {item : α} {store : Store α} {hint : Position}

/-- In ordered entries the search from a hint ends at the nearest index. -/
theorem findsBetween_nearest (hless : StrictWeak t.less) (hsorted : Sorted t.less key (front ++ back))
    (hsplit : front ++ back = before ++ after)
    (hlength : before.length = nearestIndex t.less key k (front ++ back) front.length) :
    t.FindsBetween k before after fun u k => u.hintedEqualPlace (back.head?.map Prod.fst) k := by
  intro u o hu hrep
  rw [← hsplit] at hrep
  obtain ⟨p, before', after', hsplit', hgap, hanswer, hcut⟩ := hrep.hintedEqualPlace_cut k
  rw [hu.less] at hcut
  have hlength' := hcut.length_eq hless hsorted hsplit'
  obtain ⟨rfl, rfl⟩ := List.append_inj (hsplit.symm.trans hsplit') (hlength.trans hlength'.symm)
  exact ⟨p, hgap, hanswer⟩

/-- An item that goes among equivalent ones with a hint, and gets a slot, goes
    to the index nearest to that of the hint at which it keeps the order,
    whether it comes as it is or is built in its slot. -/
theorem equal_hints_insert_nearest {f : Forest key}
    (hf : f.Reachable fun f (c : Forest.Command α κ ε) => c.OnLive f ∧ c.KeepsOrder f) (ht : t ∈ f.trees)
    (hhint : t.LiveOrEnd hint) (halloc : t.store.allocate = .ok (.ok slot, store)) (build : Unit → Except ε α)
    (hbuild : build () = .ok item) :
    ∃ (entries : List (Slot × α)) (h c : Nat), t.listing = .ok entries ∧ h ≤ entries.length ∧ hint = t.nth h ∧
      c = nearestIndex t.less key (key item) entries h ∧
      (∀ j ≤ entries.length, Sorted t.less key (entries.insertIdx j (slot, item)) →
        ((h : Int) - c).natAbs ≤ ((h : Int) - j).natAbs) ∧
      t.PutsAt (insertEqualHint hint item) .ok entries c (slot, item) ∧
      t.PutsAt (insertEqualHintWith hint build) (fun p => { calls := 1, result := .ok p }) entries c (slot, item) := by
  obtain ⟨entries, o, hrep, hless, hsorted⟩ := hf.represents_sorted ht
  obtain ⟨front, back, rfl, hcut⟩ := hrep.exists_cut hhint
  have hh : front.length ≤ (front ++ back).length := by simp
  have hc := nearestIndex_le t.less key (key item) hh
  obtain ⟨before, after, hsplit, hlength⟩ : ∃ before after, front ++ back = before ++ after ∧
      before.length = nearestIndex t.less key (key item) (front ++ back) front.length :=
    ⟨_, _, (List.take_append_drop _ _).symm, List.length_take_of_le hc⟩
  have hfinds : t.FindsBetween (key item) before after fun u k => u.hintedEqualPlace (back.head?.map Prod.fst) k :=
    findsBetween_nearest hless hsorted hsplit hlength
  have hnew := hsorted.insertIdx_nearest hless hh (slot, item)
  have hslot : hint.slot = back.head?.map Prod.fst := by rw [hcut]; rfl
  refine ⟨front ++ back, front.length, _, hrep.listing, hh, hcut.trans hrep.nth_length.symm, rfl, ?_, ?_⟩
  · intro j hj hlegal
    exact hsorted.nearestIndex_nearest hless (slot, item) hj hlegal
  · rw [← hlength, hsplit] at hnew ⊢
    rw [insertIdx_length] at hnew
    rw [hsplit] at hrep
    constructor
    · refine putsAt_of_yields (o := o) ?_ hnew
      rw [insertEqualHint, Yields, wp_bind, wp_owned hhint.1, hslot]
      exact hrep.insertEqualBy_granted halloc hfinds
    · refine putsAt_of_yields (o := o) ?_ hnew
      rw [insertEqualHintWith, Yields, wp_bind, wp_owned hhint.1, hslot]
      exact hrep.insertEqualWithBy_granted halloc hbuild hfinds

/-- Between 1 and 5 there are two items 3. One more 3 with the end as its hint
    does not go there, in front of the end, but behind the other two. -/
theorem equal_hints_insert_nearest_end :
    ∃ (t : Tree (id : Nat → Nat)) (h c : Nat), t.listing = .ok [(0, 1), (2, 3), (3, 3), (1, 5)] ∧ t.finish = t.nth h ∧
      c = nearestIndex t.less id 3 [(0, 1), (2, 3), (3, 3), (1, 5)] h ∧
      t.PutsAt (insertEqualHint t.finish 3) .ok [(0, 1), (2, 3), (3, 3), (1, 5)] c (4, 3) ∧
      ((insertEqualHint t.finish 3).run t).state.listing = .ok [(0, 1), (2, 3), (3, 3), (4, 3), (1, 5)] := by
  have h₀ : Forest.Reachable (fun f (c : Forest.Command Nat Nat Empty) => c.OnLive f ∧ c.KeepsOrder f)
    (.empty (id : Nat → Nat)) := .empty
  have h₁ := h₀.step (c := .plant (fun a b => decide (a < b)) (.arena .empty))
    ⟨Arena.sound_empty, StrictWeak.decide_lt⟩
  have h₂ := h₁.step (c := .onTree 0 (.insertEqual 1)) ⟨⟨_, rfl, nofun⟩, trivial⟩
  have h₃ := h₂.step (c := .onTree 0 (.insertEqual 5)) ⟨⟨_, rfl, nofun⟩, trivial⟩
  have h₄ := h₃.step (c := .onTree 0 (.insertEqual 3)) ⟨⟨_, rfl, nofun⟩, trivial⟩
  have h₅ := h₄.step (c := .onTree 0 (.insertEqual 3)) ⟨⟨_, rfl, nofun⟩, trivial⟩
  obtain ⟨entries, h, c, hlisting, _, hindex, hnearest, _, hputs, _⟩ := equal_hints_insert_nearest h₅
    (Array.mem_of_getElem? (i := 0) rfl) (liveOrEnd_finish _) (show _ = Except.ok (Except.ok 4, _) from rfl)
    (fun _ => .ok 3) rfl
  obtain rfl : entries = [(0, 1), (2, 3), (3, 3), (1, 5)] :=
    Except.ok.inj (hlisting.symm.trans (by decide +kernel))
  exact ⟨_, h, c, hlisting, hindex, hnearest, hputs, by decide +kernel⟩

end Tree

end RedBlack
