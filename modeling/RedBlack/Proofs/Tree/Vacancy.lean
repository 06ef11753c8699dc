import RedBlack.Proofs.Tree.Search
import RedBlack.Tree.Vacancy

namespace RedBlack

namespace Tree

variable {α κ : Type} {key : α → κ} {t : Tree key} {entries before after init rest : List (Slot × α)}
  {o : Outside α} {p : Path} {a b : Slot × α}

/-- The missing child between two neighbours, of which the one before has a key
    that may come before the new one, and the one after has a key that may come
    after it. No search relies on the order of the keys to find its child
    missing. -/
def VacantBetween (t : Tree key) (entries : List (Slot × α)) (below above : κ → Prop) (place : Place) :
    Prop :=
  ∃ (p : Path) (before after : List (Slot × α)), entries = before ++ after ∧ t.Gap p before after ∧
    place = p.place ∧ (∀ a ∈ before.getLast?, below (key a.2)) ∧ ∀ b ∈ after.head?, above (key b.2)

/-- What a search under unique keys may come to: a missing child whose
    neighbours are strictly apart from `k`, or an entry that is not. -/
inductive UniqueSpot (t : Tree key) (entries : List (Slot × α)) (k : κ) : Vacancy → Prop where
  | vacant {place : Place} :
    t.VacantBetween entries (t.less · k = true) (t.less k · = true) place → t.UniqueSpot entries k (.vacant place)
  | occupied {slot : Slot} {item : α} : (slot, item) ∈ entries → t.less (key item) k = false →
    t.less k (key item) = false → t.UniqueSpot entries k (.occupied slot)

/-- What a search among equivalent keys may come to: a missing child where the
    comparator was asked at each neighbour, one way or the other, and did not
    object. -/
def EqualSpot (t : Tree key) (entries : List (Slot × α)) (k : κ) : Place → Prop :=
  t.VacantBetween entries (fun a => t.less a k = true ∨ t.less k a = false)
    (fun b => t.less k b = true ∨ t.less b k = false)

/-- Where the search among equivalent keys comes to from a hint. The hint cuts
    the entries into `front` and `back`, the place found cuts them into `before`
    and `after`. -/
inductive HintedCut {α κ : Type} (less : κ → κ → Bool) (key : α → κ) (k : κ) (front : List (Slot × α)) :
    (back before after : List (Slot × α)) → Prop where
  /-- The place right before the hint suits the key. -/
  | here {back : List (Slot × α)} : (∀ a ∈ front.getLast?, less k (key a.2) = false) →
    (∀ b ∈ back.head?, less (key b.2) k = false) → HintedCut less key k front back front back
  /-- The hint comes before the key, and the place right after it suits the
      key. -/
  | next {e : Slot × α} {rest : List (Slot × α)} : less (key e.2) k = true →
    (∀ b ∈ rest.head?, less (key b.2) k = false) → HintedCut less key k front (e :: rest) (front ++ [e]) rest
  /-- The hint and the entry after it come before the key. -/
  | lower {e : Slot × α} {rest before after : List (Slot × α)} : less (key e.2) k = true →
    Points (Bound.lower.side less k) key before after → HintedCut less key k front (e :: rest) before after
  /-- The entry before the hint comes after the key. -/
  | upper {a : Slot × α} {back before after : List (Slot × α)} : a ∈ front.getLast? → less k (key a.2) = true →
    Points (Bound.upper.side less k) key before after → HintedCut less key k front back before after

/-- A gap to which a bound points is a spot among equivalent keys. -/
theorem Points.equalSpot {bound : Bound} {k : κ} (hgap : t.Gap p before after)
    (h : Points (bound.side t.less k) key before after) : t.EqualSpot (before ++ after) k p.place := by
  refine ⟨p, before, after, rfl, hgap, rfl, ?_, ?_⟩
  · intro a ha
    have hside := h.before a ha
    cases bound <;> simp [Bound.side] at hside <;> simp [hside]
  · intro b hb
    have hside := h.after b hb
    cases bound <;> simp [Bound.side] at hside <;> simp [hside]

/-- Whatever a hint leads to is a spot among equivalent keys. -/
theorem HintedCut.equalSpot {k : κ} {front back : List (Slot × α)} (hgap : t.Gap p before after)
    (h : HintedCut t.less key k front back before after) : t.EqualSpot (before ++ after) k p.place := by
  cases h with
  | here hlast hhead =>
    exact ⟨p, _, _, rfl, hgap, rfl, fun a ha => .inr (hlast a ha), fun b hb => .inr (hhead b hb)⟩
  | next hless hhead =>
    refine ⟨p, _, _, rfl, hgap, rfl, ?_, fun b hb => .inr (hhead b hb)⟩
    simpa using Or.inl hless
  | lower _ hpoints => exact hpoints.equalSpot hgap
  | upper _ _ hpoints => exact hpoints.equalSpot hgap

/-- Every place found between two neighbours is a missing child, or the root of
    an empty tree. -/
theorem VacantBetween.free {below above : κ → Prop} {place : Place} (h : t.Represents entries o)
    (hvacant : t.VacantBetween entries below above place) : t.shape.Free place := by
  obtain ⟨p, before, after, _, hgap, rfl, _, _⟩ := hvacant
  have hnodup := h.nodup
  rw [← hgap.fill] at hnodup ⊢
  exact Shape.free_place hnodup

/-- A gap below a node to the left lies right before that node. -/
theorem Gap.exists_after {f : Frame} {up : Path} (hgap : t.Gap (f :: up) before after)
    (hside : f.side = .left) : ∃ b rest, after = b :: rest ∧ b.1 = f.slot := by
  have hafter := hgap.after
  rw [Path.slotsAfter_cons, if_pos hside, List.cons_append] at hafter
  obtain ⟨b, rest, rfl, hb, _⟩ := List.map_eq_cons_iff.mp hafter.symm
  exact ⟨b, rest, rfl, hb⟩

/-- A gap below a node to the right lies right after that node. -/
theorem Gap.exists_before {f : Frame} {up : Path} (hgap : t.Gap (f :: up) before after)
    (hside : f.side = .right) : ∃ init a, before = init ++ [a] ∧ a.1 = f.slot := by
  have hbefore := hgap.before
  rw [Path.slotsBefore_cons, if_pos hside, ← List.append_assoc] at hbefore
  obtain ⟨init, last, rfl, _, hlast⟩ := List.map_eq_append_iff.mp hbefore.symm
  obtain ⟨a, _, rfl, ha, hnil⟩ := List.map_eq_cons_iff.mp hlast
  obtain rfl := List.map_eq_nil_iff.mp hnil
  exact ⟨init, a, rfl, ha⟩

/-- The gap in front of all entries is the left child of the first one. -/
theorem Gap.place_first (hgap : t.Gap p [] (b :: rest)) : p.place = .under b.1 .left := by
  cases p with
  | nil => cases hgap.after
  | cons f up =>
    cases hside : f.side with
    | left =>
      obtain ⟨_, _, hcons, hslot⟩ := hgap.exists_after hside
      cases hcons
      rw [Path.place, hside, hslot]
    | right =>
      obtain ⟨init, a, happend, _⟩ := hgap.exists_before hside
      simp at happend

/-- The gap behind all entries is the right child of the last one. -/
theorem Gap.place_last (hgap : t.Gap p (init ++ [a]) []) : p.place = .under a.1 .right := by
  cases p with
  | nil => simpa using hgap.before
  | cons f up =>
    cases hside : f.side with
    | left =>
      obtain ⟨_, _, hcons, _⟩ := hgap.exists_after hside
      cases hcons
    | right =>
      obtain ⟨_, last, happend, hslot⟩ := hgap.exists_before hside
      have hlast := (List.append_inj' happend rfl).2
      obtain rfl : a = last := by simpa using hlast
      rw [Path.place, hside, hslot]

namespace Represents

theorem vacant_first {below above : κ → Prop} (h : t.Represents (b :: rest) o) (habove : above (key b.2)) :
    t.VacantBetween (b :: rest) below above (.under b.1 .left) := by
  obtain ⟨p, hgap⟩ : ∃ p, t.Gap p [] (b :: rest) := exists_gap h
  refine ⟨p, [], b :: rest, rfl, hgap, hgap.place_first.symm, by simp, ?_⟩
  simpa using habove

theorem vacant_last {below above : κ → Prop} (h : t.Represents (init ++ [a]) o) (hbelow : below (key a.2)) :
    t.VacantBetween (init ++ [a]) below above (.under a.1 .right) := by
  have hsplit : t.Represents (init ++ [a] ++ []) o := by simpa using h
  obtain ⟨p, hgap⟩ := hsplit.exists_gap
  refine ⟨p, init ++ [a], [], by simp, hgap, hgap.place_last.symm, ?_, by simp⟩
  simpa using hbelow

/-- Between two neighbouring entries one of the two children is missing, and
    `gap` names that one. -/
theorem gap_eq (h : t.Represents (init ++ [a] ++ b :: rest) o) (hgap : t.Gap p (init ++ [a]) (b :: rest)) :
    t.gap a.1 b.1 = .ok p.place := by
  have hnodup := h.nodup
  rw [← hgap.fill] at hnodup
  rw [Tree.gap, ← hgap.fill]
  obtain ⟨hvacant, hplace⟩ | ⟨hvacant, hplace⟩ :=
    Shape.vacant?_right_cases hnodup (by simpa using hgap.before) (by simpa using hgap.after)
  · rw [hvacant, hplace]
  · rw [hvacant, hplace]

theorem gap (h : t.Represents (init ++ a :: b :: rest) o) (below above : κ → Prop) (hbelow : below (key a.2))
    (habove : above (key b.2)) :
    ∃ place, t.gap a.1 b.1 = .ok place ∧ t.VacantBetween (init ++ a :: b :: rest) below above place := by
  have hsplit : init ++ a :: b :: rest = (init ++ [a]) ++ (b :: rest) := by simp
  rw [hsplit] at h ⊢
  obtain ⟨p, hgap⟩ := h.exists_gap
  exact ⟨p.place, h.gap_eq hgap, p, init ++ [a], b :: rest, rfl, hgap, rfl, by simpa using hbelow,
    by simpa using habove⟩

/-- The plain search under unique keys comes to the upper bound of the key and
    looks at the entry right before it. That entry is asked once more, whichever
    way the walk came to it. -/
theorem uniquePlace_upper (h : t.Represents entries o) (k : κ) :
    ∃ (p : Path) (before after : List (Slot × α)) (v : Vacancy), entries = before ++ after ∧ t.Gap p before after ∧
      Points (Bound.upper.side t.less k) key before after ∧ (t.uniquePlace k).answer = .ok v ∧
      ((v = .vacant p.place ∧ ∀ a ∈ before.getLast?, t.less (key a.2) k = true) ∨
        ∃ a ∈ before.getLast?, v = .occupied a.1 ∧ t.less (key a.2) k = false) := by
  obtain ⟨p, before, after, asked, rfl, hgap, hrun, _, hpoints⟩ := h.trail .upper k
  suffices hfound : ∃ v, (t.uniquePlace k).answer = .ok v ∧
      ((v = .vacant p.place ∧ ∀ a ∈ before.getLast?, t.less (key a.2) k = true) ∨
        ∃ a ∈ before.getLast?, v = .occupied a.1 ∧ t.less (key a.2) k = false) by
    obtain ⟨v, hv, hcases⟩ := hfound
    exact ⟨p, before, after, v, rfl, hgap, hpoints, hv, hcases⟩
  rw [Tree.uniquePlace, Query.answer_bind, hrun, Query.answer_ok, ok_bind]
  cases p with
  | nil =>
    obtain rfl : before = [] := by simpa using hgap.before
    exact ⟨_, rfl, .inl ⟨rfl, by simp⟩⟩
  | cons f up =>
    have hsteps : Path.steps (f :: up) = (f.slot, f.side) :: Path.steps up := rfl
    rw [hsteps]
    have hask (init : List (Slot × α)) (a : Slot × α) (hsplit : before = init ++ [a]) :
        ∃ v, (do
          if ← Query.compare t.less (← t.keyAt a.1) k then return Vacancy.vacant (.under f.slot f.side)
          else return Vacancy.occupied a.1 : Query κ Vacancy).answer = .ok v ∧
            ((v = .vacant (Path.place (f :: up)) ∧ ∀ a ∈ before.getLast?, t.less (key a.2) k = true) ∨
              ∃ a ∈ before.getLast?, v = .occupied a.1 ∧ t.less (key a.2) k = false) := by
      subst hsplit
      have hmem : a ∈ init ++ [a] ++ after := by simp
      simp only [h.keyAt hmem, Query.answer_bind, Query.answer_lift, ok_bind, Query.answer_compare]
      cases hless : t.less (key a.2) k with
      | true => exact ⟨_, rfl, .inl ⟨rfl, by simpa using hless⟩⟩
      | false => exact ⟨_, rfl, .inr ⟨a, by simp, rfl, hless⟩⟩
    cases hside : f.side with
    | left =>
      obtain ⟨b, rest, rfl, hb⟩ := hgap.exists_after hside
      cases before using List.reverseRecOn with
      | nil =>
        have hleft : t.leftmost = some f.slot := by
          rw [← hb]
          exact h.leftmost_eq_some_iff.mpr rfl
        exact ⟨.vacant (.under f.slot .left), by simp [hleft], .inl ⟨by rw [Path.place, hside], by simp⟩⟩
      | append_singleton init a =>
        have hleft : t.leftmost ≠ some f.slot := by
          rw [← hb, Ne, h.leftmost_eq_some_iff]
          simp
        have hprev : t.predecessor (some f.slot) = .ok a.1 := by
          rw [← hb]
          have hsplit : t.Represents (init ++ a :: b :: rest) o := by simpa using h
          exact hsplit.predecessor
        simpa [hleft, hprev, hside] using hask init a rfl
    | right =>
      obtain ⟨init, a, rfl, ha⟩ := hgap.exists_before hside
      simpa [hside, ← ha] using hask init a rfl

theorem uniquePlace (h : t.Represents entries o) (k : κ) :
    ∃ v, (t.uniquePlace k).answer = .ok v ∧ t.UniqueSpot entries k v := by
  obtain ⟨p, before, after, v, rfl, hgap, hpoints, hv, ⟨rfl, hbelow⟩ | ⟨a, ha, rfl, hbelow⟩⟩ := h.uniquePlace_upper k
  · refine ⟨_, hv, .vacant ⟨p, before, after, rfl, hgap, rfl, hbelow, ?_⟩⟩
    intro b hb
    simpa [Bound.side] using hpoints.after b hb
  · refine ⟨_, hv, .occupied (List.mem_append_left _ (List.mem_of_mem_getLast? ha)) hbelow ?_⟩
    simpa [Bound.side] using hpoints.before a ha

/-- The plain search among equivalent keys comes to the bound that it is told.
    Asked again, the comparator sends the last node met to the same side. -/
theorem equalPlace_bound (h : t.Represents entries o) (bound : Bound) (k : κ) :
    ∃ place, (t.equalPlace bound k).answer = .ok place ∧
      t.VacantBetween entries (bound.side t.less k · = .right) (bound.side t.less k · = .left) place := by
  obtain ⟨p, before, after, asked, rfl, hgap, hrun, _, hpoints⟩ := h.trail bound k
  have hspot : t.VacantBetween (before ++ after) (bound.side t.less k · = .right) (bound.side t.less k · = .left)
      p.place :=
    ⟨p, before, after, rfl, hgap, rfl, hpoints.before, hpoints.after⟩
  refine ⟨p.place, ?_, hspot⟩
  rw [Tree.equalPlace, Query.answer_bind, hrun, Query.answer_ok, ok_bind]
  cases p with
  | nil => rfl
  | cons f up =>
    have hsteps : Path.steps (f :: up) = (f.slot, f.side) :: Path.steps up := rfl
    have hturn : ∃ c, t.turn bound k f.slot = .ok (f.side, [c]) := by
      cases hside : f.side with
      | left =>
        obtain ⟨b, rest, rfl, hb⟩ := hgap.exists_after hside
        rw [← hb, ← hpoints.after b (by simp)]
        exact h.turn bound k (by simp)
      | right =>
        obtain ⟨init, a, rfl, ha⟩ := hgap.exists_before hside
        rw [← ha, ← hpoints.before a (by simp)]
        exact h.turn bound k (by simp)
    obtain ⟨c, hc⟩ := hturn
    rw [hsteps]
    change (t.turn bound k f.slot >>= fun side => pure (Place.under f.slot side) : Query κ Place).answer = _
    rw [Query.answer_bind, hc]
    rfl

theorem equalPlace (h : t.Represents entries o) (bound : Bound) (k : κ) :
    ∃ place, (t.equalPlace bound k).answer = .ok place ∧ t.EqualSpot entries k place := by
  obtain ⟨place, hanswer, p, before, after, rfl, hgap, rfl, hbefore, hafter⟩ := h.equalPlace_bound bound k
  exact ⟨_, hanswer, Points.equalSpot hgap ⟨hbefore, hafter⟩⟩

/-- The search under unique keys with a hint, which is a slot of the tree or the
    end. -/
theorem hintedUniquePlace (h : t.Represents entries o) {hint : Option Slot}
    (hhint : ∀ slot, hint = some slot → slot ∈ t.shape.slots) (k : κ) :
    ∃ v, (t.hintedUniquePlace hint k).answer = .ok v ∧ t.UniqueSpot entries k v := by
  have hplain := h.uniquePlace k
  cases hint with
  | none =>
    cases entries using List.reverseRecOn with
    | nil => simpa [Tree.hintedUniquePlace, h.isEmpty] using hplain
    | append_singleton init a =>
      have hmem : a ∈ init ++ [a] := by simp
      cases hless : t.less (key a.2) k with
      | false =>
        simpa [Tree.hintedUniquePlace, h.isEmpty, h.rightmost, dereference, h.keyAt hmem, hless] using hplain
      | true =>
        refine ⟨.vacant (.under a.1 .right), ?_, .vacant (h.vacant_last hless)⟩
        simp [Tree.hintedUniquePlace, h.isEmpty, h.rightmost, dereference, h.keyAt hmem, hless]
  | some slot =>
    obtain ⟨before, item, after, rfl⟩ := h.exists_entry (hhint slot rfl)
    have hmem : (slot, item) ∈ before ++ (slot, item) :: after := by simp
    have hkey := h.keyAt hmem
    cases hk : t.less k (key item) with
    | true =>
      cases before using List.reverseRecOn with
      | nil =>
        have hleft : t.leftmost = some slot := h.leftmost_eq_some_iff.mpr rfl
        refine ⟨.vacant (.under slot .left), ?_, .vacant (h.vacant_first hk)⟩
        simp [Tree.hintedUniquePlace, hkey, hk, hleft]
      | append_singleton init d =>
        have hleft : t.leftmost ≠ some slot := by simp [h.leftmost_eq_some_iff]
        have hsplit : init ++ [d] ++ (slot, item) :: after = init ++ d :: (slot, item) :: after := by simp
        rw [hsplit] at h hplain ⊢
        have hdmem : d ∈ init ++ d :: (slot, item) :: after := by simp
        have hprev := h.predecessor
        cases hd : t.less (key d.2) k with
        | false => simpa [Tree.hintedUniquePlace, hkey, hk, hleft, hprev, h.keyAt hdmem, hd] using hplain
        | true =>
          obtain ⟨place, hplace, hvacant⟩ := h.gap (t.less · k = true) (t.less k · = true) hd hk
          refine ⟨.vacant place, ?_, .vacant hvacant⟩
          simp [Tree.hintedUniquePlace, hkey, hk, hleft, hprev, h.keyAt hdmem, hd, hplace]
    | false =>
      cases hslot : t.less (key item) k with
      | false => exact ⟨.occupied slot, by simp [Tree.hintedUniquePlace, hkey, hk, hslot], .occupied hmem hslot hk⟩
      | true =>
        cases after with
        | nil =>
          have hright : t.rightmost = some slot := h.rightmost_eq_some_iff.mpr rfl
          refine ⟨.vacant (.under slot .right), ?_, .vacant (h.vacant_last hslot)⟩
          simp [Tree.hintedUniquePlace, hkey, hk, hslot, hright]
        | cons d rest =>
          have hright : t.rightmost ≠ some slot := by simp [h.rightmost_eq_some_iff]
          have hdmem : d ∈ before ++ (slot, item) :: d :: rest := by simp
          have hnext := h.successor
          cases hd : t.less k (key d.2) with
          | false =>
            simpa [Tree.hintedUniquePlace, hkey, hk, hslot, hright, hnext, dereference, h.keyAt hdmem, hd] using
              hplain
          | true =>
            obtain ⟨place, hplace, hvacant⟩ := h.gap (t.less · k = true) (t.less k · = true) hslot hd
            refine ⟨.vacant place, ?_, .vacant hvacant⟩
            simp [Tree.hintedUniquePlace, hkey, hk, hslot, hright, hnext, dereference, h.keyAt hdmem, hd, hplace]

/-- The search among equivalent keys with a hint, said by how the hint cuts the
    entries. -/
theorem hintedEqualPlace_cut {front back : List (Slot × α)} (h : t.Represents (front ++ back) o) (k : κ) :
    ∃ (p : Path) (before after : List (Slot × α)), front ++ back = before ++ after ∧ t.Gap p before after ∧
      (t.hintedEqualPlace (back.head?.map Prod.fst) k).answer = .ok p.place ∧
      HintedCut t.less key k front back before after := by
  have hplain (bound : Bound) : ∃ (p : Path) (before after : List (Slot × α)), front ++ back = before ++ after ∧
      t.Gap p before after ∧ (t.equalPlace bound k).answer = .ok p.place ∧
      Points (bound.side t.less k) key before after := by
    obtain ⟨_, hanswer, p, before, after, hsplit, hgap, rfl, hbefore, hafter⟩ := h.equalPlace_bound bound k
    exact ⟨p, before, after, hsplit, hgap, hanswer, hbefore, hafter⟩
  obtain ⟨q, hhint⟩ := h.exists_gap
  cases back with
  | nil =>
    cases front using List.reverseRecOn with
    | nil =>
      obtain ⟨p, before, after, hsplit, hgap, hanswer, _⟩ := hplain .upper
      obtain ⟨rfl, rfl⟩ := List.append_eq_nil_iff.mp hsplit.symm
      exact ⟨p, [], [], rfl, hgap, by simpa [Tree.hintedEqualPlace, h.isEmpty] using hanswer,
        .here (by simp) (by simp)⟩
    | append_singleton init a =>
      have hlast : t.Represents (init ++ [a]) o := by simpa using h
      have hkey := h.keyAt (e := a) (by simp)
      cases hless : t.less k (key a.2) with
      | true =>
        obtain ⟨p, before, after, hsplit, hgap, hanswer, hpoints⟩ := hplain .upper
        refine ⟨p, before, after, hsplit, hgap, ?_, .upper (by simp) hless hpoints⟩
        simpa [Tree.hintedEqualPlace, hlast.isEmpty, hlast.rightmost, dereference, hkey, hless] using hanswer
      | false =>
        refine ⟨q, init ++ [a], [], rfl, hhint, ?_, .here (by simpa using hless) (by simp)⟩
        simp [Tree.hintedEqualPlace, hlast.isEmpty, hlast.rightmost, dereference, hkey, hless, hhint.place_last]
  | cons e rest =>
    have hkey := h.keyAt (e := e) (by simp)
    cases hslot : t.less (key e.2) k with
    | true =>
      have hsplit : front ++ e :: rest = front ++ [e] ++ rest := by simp
      obtain ⟨p, hgap⟩ : ∃ p, t.Gap p (front ++ [e]) rest := (hsplit ▸ h).exists_gap
      cases rest with
      | nil =>
        have hright : t.rightmost = some e.1 := h.rightmost_eq_some_iff.mpr rfl
        refine ⟨p, front ++ [e], [], hsplit, hgap, ?_, .next hslot (by simp)⟩
        simp [Tree.hintedEqualPlace, hkey, hslot, hright, hgap.place_last]
      | cons d more =>
        have hright : t.rightmost ≠ some e.1 := by simp [h.rightmost_eq_some_iff]
        have hdkey := h.keyAt (e := d) (by simp)
        have hnext := h.successor
        cases hd : t.less (key d.2) k with
        | true =>
          obtain ⟨p, before, after, hsplit, hgap, hanswer, hpoints⟩ := hplain .lower
          refine ⟨p, before, after, hsplit, hgap, ?_, .lower hslot hpoints⟩
          simpa [Tree.hintedEqualPlace, hkey, hslot, hright, hnext, dereference, hdkey, hd] using hanswer
        | false =>
          have hplace := (hsplit ▸ h).gap_eq hgap
          refine ⟨p, front ++ [e], d :: more, hsplit, hgap, ?_, .next hslot (by simpa using hd)⟩
          simp [Tree.hintedEqualPlace, hkey, hslot, hright, hnext, dereference, hdkey, hd, hplace]
    | false =>
      cases front using List.reverseRecOn with
      | nil =>
        have hleft : t.leftmost = some e.1 := h.leftmost_eq_some_iff.mpr rfl
        refine ⟨q, [], e :: rest, rfl, hhint, ?_, .here (by simp) (by simpa using hslot)⟩
        simp [Tree.hintedEqualPlace, hkey, hslot, hleft, hhint.place_first]
      | append_singleton init d =>
        have hleft : t.leftmost ≠ some e.1 := by simp [h.leftmost_eq_some_iff]
        have hdkey := h.keyAt (e := d) (by simp)
        have hsplit : t.Represents (init ++ d :: e :: rest) o := by simpa using h
        have hprev := hsplit.predecessor
        cases hd : t.less k (key d.2) with
        | true =>
          obtain ⟨p, before, after, hsplit, hgap, hanswer, hpoints⟩ := hplain .upper
          refine ⟨p, before, after, hsplit, hgap, ?_, .upper (by simp) hd hpoints⟩
          simpa [Tree.hintedEqualPlace, hkey, hslot, hleft, hprev, hdkey, hd] using hanswer
        | false =>
          have hplace := h.gap_eq hhint
          refine ⟨q, init ++ [d], e :: rest, rfl, hhint, ?_, .here (by simpa using hd) (by simpa using hslot)⟩
          simp [Tree.hintedEqualPlace, hkey, hslot, hleft, hprev, hdkey, hd, hplace]

/-- The search among equivalent keys with a hint, which is a slot of the tree or
    the end. -/
theorem hintedEqualPlace (h : t.Represents entries o) {hint : Option Slot}
    (hhint : ∀ slot, hint = some slot → slot ∈ t.shape.slots) (k : κ) :
    ∃ place, (t.hintedEqualPlace hint k).answer = .ok place ∧ t.EqualSpot entries k place := by
  obtain ⟨front, back, rfl, rfl⟩ := h.exists_front hhint
  obtain ⟨p, before, after, hsplit, hgap, hanswer, hcut⟩ := h.hintedEqualPlace_cut k
  rw [hsplit]
  exact ⟨_, hanswer, hcut.equalSpot hgap⟩

end Represents

end Tree

end RedBlack
