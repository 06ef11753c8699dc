import RedBlack.Proofs.Tree.Indices

namespace RedBlack

namespace Tree

variable {α κ ε : Type} {key : α → κ} {t u : Tree key} {entries : List (Slot × α)} {o : Outside α} {p q r : Position}
  {slot : Slot} {item : α} {i j : Nat}

/-- What is left of a tree once the entry with index `i`, in the given slot, is
    erased: the slot is free, and every other entry is in its slot and in its
    place among the others. -/
structure ErasedAt (t : Tree key) (i : Nat) (slot : Slot) (u : Tree key) : Prop where
  continues : u.Continues t
  listing : ∃ entries, t.listing = .ok entries ∧ u.listing = .ok (entries.eraseIdx i)
  /-- Every other position names what it named. -/
  names : ∀ q, t.LiveOrEnd q → q ≠ t.nth i → u.LiveOrEnd q ∧ u.get q = t.get q
  /-- Any two other positions are in the order that they had. -/
  order : ∀ q r, t.LiveOrEnd q → t.LiveOrEnd r → q ≠ t.nth i → r ≠ t.nth i → (u.InOrder q r ↔ t.InOrder q r)
  gone : ¬ u.LiveOrEnd (t.nth i)
  freed : u.store.use slot = none
  others : ∀ s, s ≠ slot → u.store.use s = t.store.use s

/-- A position other than the one with index `i` has an index that is left when
    that entry is erased. -/
theorem Represents.exists_index_ne (h : t.Represents entries o) (hi : i < entries.length) (hq : t.LiveOrEnd q)
    (hne : q ≠ t.nth i) :
    ∃ j ≤ entries.length, j ≠ i ∧ q = t.nth j ∧ (if j < i then j else j - 1) ≤ (entries.eraseIdx i).length := by
  obtain ⟨j, hj, rfl⟩ := h.liveOrEnd_iff.mp hq
  have hji : j ≠ i := by
    rintro rfl
    exact hne rfl
  refine ⟨j, hj, hji, rfl, ?_⟩
  rw [List.length_eraseIdx_of_lt hi]
  split <;> omega

section Erased

variable (h : t.Represents entries o) (hu : u.Continues t) (hrep : u.Represents (entries.eraseIdx i) o)
include h hu hrep

theorem nth_eraseIdx (hj : j ≠ i) : t.nth j = u.nth (if j < i then j else j - 1) := by
  rw [h.nth_eq, hrep.nth_eq, hu.position, List.getElem?_eraseIdx]
  by_cases hlt : j < i
  · rw [if_pos hlt, if_pos hlt]
  · have hnot : ¬ j - 1 < i := by omega
    have hback : j - 1 + 1 = j := by omega
    rw [if_neg hlt, if_neg hnot, hback]

theorem liveOrEnd_of_eraseIdx (hi : i < entries.length) (hq : t.LiveOrEnd q) (hne : q ≠ t.nth i) :
    u.LiveOrEnd q := by
  obtain ⟨j, _, hji, rfl, hj⟩ := h.exists_index_ne hi hq hne
  exact hrep.liveOrEnd_iff.mpr ⟨_, hj, nth_eraseIdx h hu hrep hji⟩

theorem inOrder_eraseIdx_iff (hi : i < entries.length) (hq : t.LiveOrEnd q) (hr : t.LiveOrEnd r)
    (hqi : q ≠ t.nth i) (hri : r ≠ t.nth i) : u.InOrder q r ↔ t.InOrder q r := by
  obtain ⟨j, hj, hji, rfl, hj'⟩ := h.exists_index_ne hi hq hqi
  obtain ⟨k, hk, hki, rfl, hk'⟩ := h.exists_index_ne hi hr hri
  rw [h.inOrder_iff hj hk, nth_eraseIdx h hu hrep hji, nth_eraseIdx h hu hrep hki, hrep.inOrder_iff hj' hk']
  split <;> split <;> omega

end Erased

/-- A position that names an entry of two trees with one tag names the same item
    in both. -/
theorem get_eq_of_subset {rest : List (Slot × α)} {o' : Outside α} (h : t.Represents entries o)
    (hu : u.Continues t) (hrep : u.Represents rest o') (hsub : rest ⊆ entries) (hq : u.LiveOrEnd q) :
    u.get q = t.get q := by
  obtain ⟨before, after, rfl, rfl⟩ := hrep.exists_cut hq
  rw [hrep.get, hu.position]
  rw [Tree.get, own_position, ok_bind]
  cases after with
  | nil => rfl
  | cons e rest =>
    have hmem : e ∈ entries := hsub (by simp)
    simp [h.itemAt hmem]

/-- A position that names a free slot is no position of the tree. -/
theorem Represents.not_liveOrEnd_of_free (h : t.Represents entries o) (hfree : t.store.use slot = none)
    (hslot : q.slot = some slot) : ¬ t.LiveOrEnd q := by
  rintro ⟨_, hlive⟩
  have hmem := hlive slot hslot
  rw [h.slots] at hmem
  obtain ⟨e, he, rfl⟩ := List.mem_map.mp hmem
  have hbuilt := h.store.built e he
  rw [hfree] at hbuilt
  cases hbuilt

theorem Represents.erasedAt {before after : List (Slot × α)} (h : t.Represents (before ++ (slot, item) :: after) o)
    (hu : u.Continues t) (hrep : u.Represents (before ++ after) o) : t.ErasedAt before.length slot u := by
  have hi : before.length < (before ++ (slot, item) :: after).length := by simp
  have hcut : (before ++ (slot, item) :: after).eraseIdx before.length = before ++ after := eraseIdx_length _ _ _
  have herased : u.Represents ((before ++ (slot, item) :: after).eraseIdx before.length) o := by rwa [hcut]
  have hsub : before ++ after ⊆ before ++ (slot, item) :: after := List.Sublist.subset (by simp)
  have hstore : t.store.Holds (before ++ [(slot, item)] ++ after) o := by simpa using h.store
  have hreleased := hstore.released hrep.store
  refine ⟨hu, ⟨_, h.listing, herased.listing⟩, ?_, ?_, ?_, ?_, ?_⟩
  · intro q hq hne
    have hlive := liveOrEnd_of_eraseIdx h hu herased hi hq hne
    exact ⟨hlive, get_eq_of_subset h hu hrep hsub hlive⟩
  · intro q r hq hr hqi hri
    exact inOrder_eraseIdx_iff h hu herased hi hq hr hqi hri
  · exact hrep.not_liveOrEnd_of_free (hreleased.freed slot (by simp)) (by rw [h.nth_length]; rfl)
  · exact hreleased.freed slot (by simp)
  · intro s hs
    exact hreleased.others s (by simpa using hs)

/-- Erasing the item at a position gives it, with the position that came next,
    and takes its entry out of the order. Every other position goes on naming
    its item, in the same slot and in the same place among the others; the slot
    that is free again is the one that the erased position named. -/
theorem erase_keeps_others {f : Forest key} (hf : f.Reachable fun f (c : Forest.Command α κ ε) => c.OnLive f)
    (ht : t ∈ f.trees) (hp : t.Live p) :
    ∃ (entries : List (Slot × α)) (i : Nat) (slot : Slot) (item : α), t.listing = .ok entries ∧
      entries[i]? = some (slot, item) ∧ p = t.nth i ∧ p.slot = some slot ∧
      ((erase p).run t).answer = .ok (item, t.nth (i + 1)) ∧ t.ErasedAt i slot ((erase p).run t).state := by
  obtain ⟨entries, o, h⟩ := hf.represents_onLive ht
  obtain ⟨before, slot, item, after, rfl, hslot, hindex⟩ := h.exists_index hp
  obtain ⟨_, hanswer, rfl, hu, hrep⟩ := (h.erase hp.1 hslot).answer
  have hnext : t.nth (before.length + 1) = t.position (after.head?.map Prod.fst) := by
    have hsplit : t.Represents (before ++ [(slot, item)] ++ after) o := by simpa using h
    simpa using hsplit.nth_length
  refine ⟨_, before.length, slot, item, h.listing, by simp, hindex, hslot, ?_, h.erasedAt hu hrep⟩
  rw [hanswer, hnext]

/-- In a tree of the items 1 to 4 with 2 at the root, the item that comes next
    lies below the right child. It takes the place of the root when that is
    erased, and stays in its slot. -/
theorem erase_keeps_others_root :
    ∃ (t : Tree (id : Nat → Nat)) (p : Position), t.listing = .ok [(1, 1), (0, 2), (3, 3), (2, 4)] ∧
      t.shape = .node .black (.node .black .nil 1 .nil) 0 (.node .black (.node .red .nil 3 .nil) 2 .nil) ∧
      p.slot = some 0 ∧ ((erase p).run t).answer = .ok (2, t.nth 2) ∧ (t.nth 2).slot = some 3 ∧
      ∃ (i : Nat) (slot : Slot), p = t.nth i ∧ p.slot = some slot ∧ t.ErasedAt i slot ((erase p).run t).state := by
  have h₀ : Forest.Reachable (fun f (c : Forest.Command Nat Nat Empty) => c.OnLive f) (.empty (id : Nat → Nat)) :=
    .empty
  have h₁ := h₀.step (c := .plant (fun a b => decide (a < b)) (.arena .empty)) Arena.sound_empty
  have h₂ := h₁.step (c := .onTree 0 (.insertEqual 2)) ⟨_, rfl, nofun⟩
  have h₃ := h₂.step (c := .onTree 0 (.insertEqual 1)) ⟨_, rfl, nofun⟩
  have h₄ := h₃.step (c := .onTree 0 (.insertEqual 4)) ⟨_, rfl, nofun⟩
  have h₅ := h₄.step (c := .onTree 0 (.insertEqual 3)) ⟨_, rfl, nofun⟩
  obtain ⟨_, i, slot, _, _, _, hindex, hslot, _, herased⟩ := erase_keeps_others h₅
    (Array.mem_of_getElem? (i := 0) rfl) (show Live _ ⟨some 0, 1⟩ from ⟨by decide +kernel, 0, by decide +kernel, rfl⟩)
  refine ⟨_, _, ?_, ?_, rfl, ?_, ?_, i, slot, hindex, hslot, herased⟩
  all_goals rfl

end Tree

end RedBlack
