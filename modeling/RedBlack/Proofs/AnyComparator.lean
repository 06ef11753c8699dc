import RedBlack.Proofs.Sorted.Map
import RedBlack.Proofs.Sorted.Set
import RedBlack.Proofs.Tree.Linked
import RedBlack.Proofs.Tree.Runs
import RedBlack.Proofs.Wired.Sorted

namespace RedBlack

/-- A search under unique keys names a place that is free, or an item that is
    there. -/
def Vacancy.Fits (shape : Shape) : Vacancy → Prop
  | .vacant place => shape.Free place
  | .occupied slot => slot ∈ shape.slots

namespace Tree

variable {α κ : Type} {key : α → κ}

/-- Every search for a place is answered, and no new node would take the place
    of another one. Nothing is asked of the comparator for that. -/
structure NamesFreePlaces (t : Tree key) : Prop where
  unique : ∀ k, ∃ v, (t.uniquePlace k).answer = .ok v ∧ v.Fits t.shape
  equal : ∀ bound k, ∃ place, (t.equalPlace bound k).answer = .ok place ∧ t.shape.Free place
  hintedUnique : ∀ hint k, t.LiveOrEnd hint →
    ∃ v, (t.hintedUniquePlace hint.slot k).answer = .ok v ∧ v.Fits t.shape
  hintedEqual : ∀ hint k, t.LiveOrEnd hint →
    ∃ place, (t.hintedEqualPlace hint.slot k).answer = .ok place ∧ t.shape.Free place

variable {t : Tree key} {entries : List (Slot × α)} {o : Outside α} {k : κ}

theorem UniqueSpot.fits {v : Vacancy} (h : t.Represents entries o) (hspot : t.UniqueSpot entries k v) :
    v.Fits t.shape := by
  cases hspot with
  | vacant hvacant => exact hvacant.free h
  | occupied hmem =>
    unfold Vacancy.Fits
    rw [h.slots]
    exact List.mem_map_of_mem hmem

theorem Represents.namesFreePlaces (h : t.Represents entries o) : t.NamesFreePlaces := by
  constructor
  · intro k
    obtain ⟨v, hanswer, hspot⟩ := h.uniquePlace k
    exact ⟨v, hanswer, hspot.fits h⟩
  · intro bound k
    obtain ⟨place, hanswer, hspot⟩ := h.equalPlace bound k
    exact ⟨place, hanswer, VacantBetween.free h hspot⟩
  · intro hint k hhint
    obtain ⟨v, hanswer, hspot⟩ := h.hintedUniquePlace hhint.2 k
    exact ⟨v, hanswer, hspot.fits h⟩
  · intro hint k hhint
    obtain ⟨place, hanswer, hspot⟩ := h.hintedEqualPlace hhint.2 k
    exact ⟨place, hanswer, VacantBetween.free h hspot⟩

end Tree

variable {α κ ν ε : Type}

/-- Under any comparator, a tree that legal requests lead to is a red-black tree
    but for the order of its keys, and so are the links written for it; its
    searches name free places only, every change is made link by link without an
    assertion failing on the way, and every legal request that does not ask for
    an order is answered. No request to a map or a set stops, unless it asks for
    a slot of a full arena. -/
theorem any_comparator_safe (key : α → κ) (less : κ → κ → Bool) :
    (∀ (store : Store α) (tag : UInt64) (t : Tree key), store.Sound →
      Tree.Reachable (fun t (c : Tree.Command α κ ε) => c.Legal t) (.empty key less store tag) t →
      t.WellLinked ∧ t.HasSoundLinks ∧ t.NamesFreePlaces ∧
        ∀ c : Tree.Command α κ ε, t.RelinksTo (c.run.run t).state ∧
          (c.Legal t → ¬ c.NeedsOrder → ∃ reply, (c.run.run t).answer = .ok reply)) ∧
    (∀ m : SortedMap κ ν, m.Reachable less → m.StopsOnlyFull ∧ m.tree.WellLinked ∧ m.tree.HasSoundLinks ∧
      ∀ c : SortedMap.Command κ ν, m.tree.RelinksTo (c.run.run m).state.tree) ∧
    ∀ s : SortedSet κ, s.Reachable less → s.StopsOnlyFull ∧ s.tree.WellLinked ∧ s.tree.HasSoundLinks ∧
      ∀ c : SortedSet.Command κ, s.tree.RelinksTo (c.run.run s).state.tree := by
  refine ⟨?_, ?_, ?_⟩
  · intro store tag t hstore ht
    have hempty : (Tree.empty key less store tag).Represents [] _ := Tree.represents_empty hstore.holds_nil
    obtain ⟨_, entries, hrep, _⟩ := ht.represents (fun _ _ hlegal => hlegal) hempty
    have hlinks := ht.hasLinks (fun _ _ hlegal => hlegal) hempty (Tree.hasLinks_empty key less store tag)
    refine ⟨hrep.wellLinked, hlinks.sound hrep, hrep.namesFreePlaces, fun c => ⟨hrep.relinkedBy_command c, ?_⟩⟩
    intro hc horder
    exact ht.answers (fun _ _ hlegal => hlegal) hempty hc fun hneeds => absurd hneeds horder
  · intro m hm
    obtain ⟨_, entries, hrep⟩ := hm.represents
    exact ⟨hm.stopsOnlyFull, hrep.wellLinked, hm.hasLinks.sound hrep, fun c => c.relinks hrep⟩
  · intro s hs
    obtain ⟨_, entries, hrep⟩ := hs.represents
    exact ⟨hs.stopsOnlyFull, hrep.wellLinked, hs.hasLinks.sound hrep, fun c => c.relinks hrep⟩

/-- A comparator that finds every key less than every other, itself included. -/
theorem any_comparator_safe_always :
    ∃ (t : Tree (id : Nat → Nat)) (m : SortedMap Nat Nat) (s : SortedSet Nat), t.size = 2 ∧ m.size = 2 ∧
      s.size = 2 ∧ (t.WellLinked ∧ t.HasSoundLinks ∧ t.NamesFreePlaces ∧
        t.RelinksTo ((.popLast : Tree.Command Nat Nat Empty).run.run t).state ∧
        ∃ reply, ((.popLast : Tree.Command Nat Nat Empty).run.run t).answer = .ok reply) ∧
      (m.StopsOnlyFull ∧ m.tree.HasSoundLinks) ∧ s.StopsOnlyFull ∧ s.tree.HasSoundLinks := by
  let always (_ _ : Nat) : Bool := true
  obtain ⟨htree, hmap, hset⟩ := @any_comparator_safe Nat Nat Nat Empty id always
  let origin : Tree (id : Nat → Nat) := .empty id always (.arena .empty) 0
  have ht₀ : Tree.Reachable (fun t (c : Tree.Command Nat Nat Empty) => c.Legal t) origin origin := .start
  have ht₂ := (ht₀.step (c := .insertEqual 7) trivial).step (c := .insertUnique 7) trivial
  have hm₀ : (SortedMap.empty always : SortedMap Nat Nat).Reachable always := .empty
  have hm₂ := (hm₀.step (c := .insert 7 1)).step (c := .insert 7 2)
  have hs₀ : (SortedSet.empty always).Reachable always := .empty
  have hs₂ := (hs₀.step (c := .insert 7)).step (c := .insert 7)
  obtain ⟨hlinked, hlinks, hplaces, hanswers⟩ := htree (.arena .empty) 0 _ Arena.sound_empty ht₂
  obtain ⟨hpops, hanswer⟩ := hanswers .popLast
  obtain ⟨hfull, _, hmapLinks, _⟩ := hmap _ hm₂
  obtain ⟨hfull', _, hsetLinks, _⟩ := hset _ hs₂
  refine ⟨_, _, _, ?_, ?_, ?_, ⟨hlinked, hlinks, hplaces, hpops, hanswer trivial id⟩, ⟨hfull, hmapLinks⟩, hfull',
    hsetLinks⟩
  · decide +kernel
  · decide +kernel
  · decide +kernel

end RedBlack
