import RedBlack.Proofs.Forest

namespace RedBlack

namespace Sorted

variable {α κ : Type} {less : κ → κ → Bool} {key : α → κ} {before after : List (Slot × α)} {k : κ}

/-- A key that comes after the last entry of a part comes after all of them. -/
theorem all_less (hless : StrictWeak less) (h : Sorted less key before)
    (hlast : ∀ a ∈ before.getLast?, less (key a.2) k = true) {e : Slot × α} (he : e ∈ before) :
    less (key e.2) k = true := by
  have hside := h.right_of_getLast? hless .lower k (by simpa [Bound.side] using hlast) he
  simpa [Bound.side] using hside

/-- A key that comes before the first entry of a part comes before all of
    them. -/
theorem less_all (hless : StrictWeak less) (h : Sorted less key after)
    (hhead : ∀ b ∈ after.head?, less k (key b.2) = true) {e : Slot × α} (he : e ∈ after) :
    less k (key e.2) = true := by
  have hside := h.left_of_head? hless .upper k (by simpa [Bound.side] using hhead) he
  simpa [Bound.side] using hside

/-- The entries on one side of a key are the same ones however they are cut
    off. -/
theorem cut_unique (hless : StrictWeak less) {before' after' : List (Slot × α)}
    (hsplit : before ++ after = before' ++ after')
    (hbelow : ∀ e ∈ before', less (key e.2) k = true) (habove : ∀ e ∈ after, less k (key e.2) = true)
    (hbelow' : ∀ e ∈ before, less (key e.2) k = true) (habove' : ∀ e ∈ after', less k (key e.2) = true) :
    before = before' ∧ after = after' := by
  have hempty (middle : List (Slot × α)) (hlow : ∀ e ∈ middle, less (key e.2) k = true)
      (hhigh : ∀ e ∈ middle, less k (key e.2) = true) : middle = [] := by
    rw [List.eq_nil_iff_forall_not_mem]
    intro e he
    have hapart := hless.asymm (hlow e he)
    rw [hhigh e he] at hapart
    cases hapart
  obtain ⟨middle, rfl, rfl⟩ | ⟨middle, rfl, rfl⟩ := List.append_eq_append_iff.mp hsplit
  · have hmiddle := hempty middle (fun e he => hbelow e (by simp [he])) fun e he => habove e (by simp [he])
    simp [hmiddle]
  · have hmiddle := hempty middle (fun e he => hbelow' e (by simp [he])) fun e he => habove' e (by simp [he])
    simp [hmiddle]

end Sorted

namespace Tree

open RedBlack.Action

variable {α κ ε : Type} {key : α → κ} {t : Tree key} {entries : List (Slot × α)} {o : Outside α} {k : κ}

/-- A position that names an item whose key is equivalent to `k`. -/
def HoldsEquivalent (t : Tree key) (k : κ) (p : Position) : Prop :=
  t.Live p ∧ ∃ item, t.get p = .ok (some item) ∧ t.less k (key item) = false ∧ t.less (key item) k = false

theorem Represents.holdsEquivalent {slot : Slot} {item : α} (h : t.Represents entries o)
    (hmem : (slot, item) ∈ entries) (hbelow : t.less (key item) k = false) (habove : t.less k (key item) = false) :
    t.HoldsEquivalent k (t.position (some slot)) := by
  have hslot : slot ∈ t.shape.slots := by
    rw [h.slots]
    exact List.mem_map_of_mem hmem
  have hitem : t.itemAt slot = .ok item := h.itemAt hmem
  refine ⟨⟨rfl, slot, hslot, rfl⟩, item, ?_, habove, hbelow⟩
  simp [Tree.get, own_position, hitem]

section Order

variable (hless : StrictWeak t.less) (hsorted : Sorted t.less key entries)
include hless hsorted

/-- A missing child whose neighbours lie strictly on both sides of a key parts
    the entries by that key. -/
theorem VacantBetween.parts {place : Place}
    (h : t.VacantBetween entries (t.less · k = true) (t.less k · = true) place) :
    ∃ (p : Path) (before after : List (Slot × α)), entries = before ++ after ∧ t.Gap p before after ∧
      place = p.place ∧ (∀ e ∈ before, t.less (key e.2) k = true) ∧ ∀ e ∈ after, t.less k (key e.2) = true := by
  obtain ⟨p, before, after, rfl, hgap, hplace, hlast, hhead⟩ := h
  obtain ⟨hb, ha, _⟩ := List.pairwise_append.mp hsorted
  exact ⟨p, before, after, rfl, hgap, hplace, fun _ => Sorted.all_less hless hb hlast,
    fun _ => Sorted.less_all hless ha hhead⟩

/-- Any two searches under unique keys come to the same missing child, or both
    to an equivalent item: both places part the entries by the key, there is one
    such cut, and one missing child at it. -/
theorem UniqueSpot.eq_or_occupied {v w : Vacancy} (hv : t.UniqueSpot entries k v) (hw : t.UniqueSpot entries k w) :
    v = w ∨ ∃ a b : Slot, v = .occupied a ∧ w = .occupied b := by
  have hexclusive {place : Place} (h : t.VacantBetween entries (t.less · k = true) (t.less k · = true) place)
      {slot : Slot} {item : α} (hmem : (slot, item) ∈ entries) (hbelow : t.less (key item) k = false)
      (habove : t.less k (key item) = false) : False := by
    obtain ⟨p, before, after, rfl, _, _, hlow, hhigh⟩ := VacantBetween.parts hless hsorted h
    obtain hmem | hmem := List.mem_append.mp hmem
    · exact absurd (hlow _ hmem) (by simp [hbelow])
    · exact absurd (hhigh _ hmem) (by simp [habove])
  cases hv with
  | vacant hv =>
    cases hw with
    | vacant hw =>
      obtain ⟨p, before, after, rfl, hgap, rfl, hlow, hhigh⟩ := VacantBetween.parts hless hsorted hv
      obtain ⟨q, before', after', hsplit, hgap', rfl, hlow', hhigh'⟩ := VacantBetween.parts hless hsorted hw
      obtain ⟨rfl, rfl⟩ := Sorted.cut_unique hless hsplit hlow' hhigh hlow hhigh'
      have hpath : p = q :=
        Path.eq_of_slotsBefore_eq (hgap.fill.trans hgap'.fill.symm) (hgap.before.trans hgap'.before.symm)
      rw [hpath]
      exact .inl rfl
    | occupied hmem hbelow habove => exact (hexclusive hv hmem hbelow habove).elim
  | occupied hmem hbelow habove =>
    cases hw with
    | vacant hw => exact (hexclusive hw hmem hbelow habove).elim
    | occupied => exact .inr ⟨_, _, rfl, rfl⟩

end Order

/-- What is left of an insertion once its search has come to something. -/
def insertFound (item : α) : Vacancy → Op key (Except AllocError (Position × Bool))
  | .occupied slot => do return .ok (← positionOf (some slot), false)
  | .vacant place => do return (← insertAt item place).map fun p => (p, true)

/-- What inserting by a search comes to depends on what the search finds, not on
    how it got there or how much it compared. -/
theorem run_insertUniqueBy (search : Tree key → κ → Query κ Vacancy) {item : α} {v : Vacancy}
    (h : (search t (key item)).answer = .ok v) :
    ((insertUniqueBy search item).run t).state = ((insertFound item v).run t).state ∧
      ((insertUniqueBy search item).run t).answer = ((insertFound item v).run t).answer := by
  have hfinds : (ask fun u => search u (key item) : Op key Vacancy).Yields t fun found u => found = v ∧ u = t := by
    rw [Yields, wp_ask_ok (s := t) h]
    exact ⟨rfl, rfl⟩
  obtain ⟨found, hanswer, rfl, hstate⟩ := hfinds.answer
  have hbind := run_bind_ok hanswer (insertFound item)
  rw [hstate] at hbind
  have hsame : insertUniqueBy search item = (ask fun u => search u (key item)) >>= insertFound item := by
    rw [insertUniqueBy]
    congr 1
  rwa [hsame]

/-- An item found in the way of a new one is equivalent to it. -/
theorem UniqueInsertion.holdsEquivalent {item : α} {p : Position} {u : Tree key} (h : t.Represents entries o)
    (hinsertion : t.UniqueInsertion entries o item (.ok (p, false)) u) : t.HoldsEquivalent (key item) p := by
  generalize hanswer : (Except.ok (p, false) : Except AllocError (Position × Bool)) = answer at hinsertion
  cases hinsertion with
  | vacant hinserted => cases hinserted <;> cases hanswer
  | occupied hmem hbelow habove _ _ =>
    cases hanswer
    exact h.holdsEquivalent hmem hbelow habove

/-- In an ordered tree a hint changes neither what an insertion leaves nor its
    answer, save which item is named as being in the way. -/
theorem insertUniqueHint_agrees {hint : Position} (h : t.Represents entries o) (hless : StrictWeak t.less)
    (hsorted : Sorted t.less key entries) (hhint : t.LiveOrEnd hint) (item : α) :
    ((insertUniqueHint hint item).run t).state = ((insertUnique item).run t).state ∧
    (((insertUniqueHint hint item).run t).answer = ((insertUnique item).run t).answer ∨
      ∃ p q, ((insertUnique item).run t).answer = .ok (.ok (p, false)) ∧
        ((insertUniqueHint hint item).run t).answer = .ok (.ok (q, false))) := by
  obtain ⟨v, hv, hspot⟩ := h.uniquePlace (key item)
  obtain ⟨w, hw, hspot'⟩ := h.hintedUniquePlace hhint.2 (key item)
  obtain ⟨hstate, hanswer⟩ := run_insertUniqueBy uniquePlace hv
  obtain ⟨hstate', hanswer'⟩ := run_insertUniqueBy (hintedUniquePlace · hint.slot) hw
  have howned : ((owned hint : Op key (Option Slot)).run t).answer = .ok hint.slot := by
    change t.own hint = _
    rw [own, if_pos hhint.1]
  have howned' : ((owned hint : Op key (Option Slot)).run t).state = t := rfl
  obtain ⟨hstate₀, hanswer₀⟩ := run_bind_ok howned fun slot => insertUniqueBy (hintedUniquePlace · slot) item
  rw [howned'] at hstate₀ hanswer₀
  rw [Tree.insertUniqueHint, Tree.insertUnique, hstate₀, hanswer₀, hstate, hstate', hanswer, hanswer']
  obtain rfl | ⟨a, b, rfl, rfl⟩ := UniqueSpot.eq_or_occupied hless hsorted hspot hspot'
  · exact ⟨rfl, .inl rfl⟩
  · exact ⟨rfl, .inr ⟨t.position (some a), t.position (some b), rfl, rfl⟩⟩

/-- Inserting under unique keys with a hint, right or wrong, leaves the tree and
    the store that inserting without one leaves, and comes to the same answer.
    Only where items are in the way may the two name different ones, and both
    are equivalent to the new one. -/
theorem insertUniqueHint_eq_insertUnique {f : Forest key} {t : Tree key} {hint : Position}
    (hf : f.Reachable fun f (c : Forest.Command α κ ε) => c.Legal f ∧ c.KeepsOrder f) (ht : t ∈ f.trees)
    (hhint : t.LiveOrEnd hint) (item : α) :
    ((insertUniqueHint hint item).run t).state = ((insertUnique item).run t).state ∧
    ∃ plain hinted, ((insertUnique item).run t).answer = .ok plain ∧
      ((insertUniqueHint hint item).run t).answer = .ok hinted ∧
      ((∀ p, plain ≠ .ok (p, false)) → hinted = plain) ∧
      ∀ p, plain = .ok (p, false) → ∃ q, hinted = .ok (q, false) ∧
        t.HoldsEquivalent (key item) p ∧ t.HoldsEquivalent (key item) q ∧
        ((∀ r s, t.HoldsEquivalent (key item) r → t.HoldsEquivalent (key item) s → r = s) → q = p) := by
  have hvalid : f.Valid True := hf.valid (fun _ _ hallowed => hallowed.1) fun _ _ hallowed _ => hallowed.2
  obtain ⟨entries, o, h, horder⟩ := hvalid t ht
  obtain ⟨hless, hsorted⟩ := horder trivial
  obtain ⟨plain, hplain, hinsertion⟩ := (h.insertUnique item).answer
  obtain ⟨hinted, hhinted, hinsertion'⟩ := (h.insertUniqueHint item hhint).answer
  obtain ⟨hstate, hanswer⟩ := insertUniqueHint_agrees h hless hsorted hhint item
  have hagree : hinted = plain ∨ ∃ p q, plain = .ok (p, false) ∧ hinted = .ok (q, false) := by
    rw [hplain, hhinted] at hanswer
    obtain hsame | ⟨p, q, hp, hq⟩ := hanswer
    · exact .inl (Except.ok.inj hsame)
    · exact .inr ⟨p, q, Except.ok.inj hp, Except.ok.inj hq⟩
  refine ⟨hstate, plain, hinted, hplain, hhinted, ?_, ?_⟩
  · intro hnew
    obtain hsame | ⟨p, _, hp, _⟩ := hagree
    · exact hsame
    · exact absurd hp (hnew p)
  · rintro p rfl
    obtain ⟨q, rfl⟩ : ∃ q, hinted = .ok (q, false) := by
      obtain rfl | ⟨_, q, _, hq⟩ := hagree
      · exact ⟨p, rfl⟩
      · exact ⟨q, hq⟩
    have hp := UniqueInsertion.holdsEquivalent h hinsertion
    have hq := UniqueInsertion.holdsEquivalent h hinsertion'
    exact ⟨q, rfl, hp, hq, fun hunique => hunique q p hq hp⟩

/-- In a tree with two equal items, inserting one more with the first as the
    hint names the first one, and inserting it without a hint names the last
    one. -/
theorem insertUniqueHint_eq_insertUnique_duplicates :
    ∃ (t : Tree (id : Nat → Nat)) (hint : Position), t.items = .ok [3, 3] ∧
      ((insertUniqueHint hint 3).run t).state = ((insertUnique 3).run t).state ∧
      ∃ p q, ((insertUnique 3).run t).answer = .ok (.ok (p, false)) ∧
        ((insertUniqueHint hint 3).run t).answer = .ok (.ok (q, false)) ∧ q ≠ p := by
  have h₀ : Forest.Reachable (fun f (c : Forest.Command Nat Nat Empty) => c.Legal f ∧ c.KeepsOrder f)
    (.empty (id : Nat → Nat)) := .empty
  have h₁ := h₀.step (c := .plant (fun a b => decide (a < b)) (.arena .empty))
    ⟨Arena.sound_empty, StrictWeak.decide_lt⟩
  have h₂ := h₁.step (c := .onTree 0 (.insertEqual 3)) ⟨⟨_, rfl, trivial⟩, trivial⟩
  have h₃ := h₂.step (c := .onTree 0 (.insertEqual 3)) ⟨⟨_, rfl, trivial⟩, trivial⟩
  obtain ⟨hstate, _⟩ := insertUniqueHint_eq_insertUnique h₃ (Array.mem_of_getElem? (i := 0) rfl)
    (show LiveOrEnd _ ⟨some 0, 1⟩ from ⟨by decide +kernel, by rintro slot ⟨rfl⟩; decide +kernel⟩) 3
  refine ⟨_, _, ?_, hstate, ⟨some 1, 1⟩, ⟨some 0, 1⟩, ?_, ?_, by decide⟩
  all_goals rfl

end Tree

end RedBlack
