import Mathlib.Order.Defs.Unbundled
import RedBlack.Proofs.Tree.Removal

namespace RedBlack

/-- A comparator that is a strict weak order: not being less either way is an
    equivalence. Under it the answers at the two neighbours of a place settle
    how a key lies to all the others. -/
abbrev StrictWeak {κ : Type} (less : κ → κ → Bool) : Prop :=
  IsStrictWeakOrder κ fun a b => less a b = true

namespace StrictWeak

variable {κ : Type} {less : κ → κ → Bool} {a b c : κ}

theorem irrefl (hless : StrictWeak less) (a : κ) : less a a = false := by
  have hirrefl := hless.toIrrefl.irrefl a
  simpa using hirrefl

theorem trans (hless : StrictWeak less) (hab : less a b = true) (hbc : less b c = true) :
    less a c = true :=
  hless.toIsTrans.trans a b c hab hbc

theorem asymm (hless : StrictWeak less) (hab : less a b = true) : less b a = false := by
  by_contra hnot
  have hba : less b a = true := by simpa using hnot
  have haa := hless.trans hab hba
  rw [hless.irrefl] at haa
  cases haa

theorem false_trans (hless : StrictWeak less) (hba : less b a = false) (hcb : less c b = false) :
    less c a = false := by
  by_contra hnot
  have hca : less c a = true := by simpa using hnot
  have hac := hless.asymm hca
  cases hab : less a b with
  | true =>
    have := hless.trans hca hab
    simp_all
  | false =>
    cases hbc : less b c with
    | true =>
      have := hless.trans hbc hca
      simp_all
    | false =>
      have hincomp := hless.incomp_trans a b c (by simp [hab, hba]) (by simp [hbc, hcb])
      simp_all

theorem lt_of_lt_of_le (hless : StrictWeak less) (hab : less a b = true) (hcb : less c b = false) :
    less a c = true := by
  by_contra hnot
  have hac : less a c = false := by simpa using hnot
  have := hless.false_trans hcb hac
  simp_all

theorem lt_of_le_of_lt (hless : StrictWeak less) (hba : less b a = false) (hbc : less b c = true) :
    less a c = true := by
  by_contra hnot
  have hac : less a c = false := by simpa using hnot
  have := hless.false_trans hac hba
  simp_all

theorem comap {ι : Type} (hless : StrictWeak less) (f : ι → κ) : StrictWeak fun a b => less (f a) (f b) where
  irrefl a := by simp [hless.irrefl]
  trans _ _ _ hab hbc := hless.trans hab hbc
  incomp_trans a b c hab hbc := hless.incomp_trans (f a) (f b) (f c) hab hbc

theorem reverse (hless : StrictWeak less) : StrictWeak fun a b => less b a where
  irrefl a := by simp [hless.irrefl]
  trans _ _ _ hab hbc := hless.trans hbc hab
  incomp_trans a b c hab hbc := (hless.incomp_trans a b c hab.symm hbc.symm).symm

theorem decide_lt : StrictWeak fun a b : Nat => decide (a < b) where
  irrefl := by simp
  trans a b c hab hbc := by
    simp only [decide_eq_true_eq] at hab hbc ⊢
    omega
  incomp_trans a b c hab hbc := by
    simp only [decide_eq_true_eq] at hab hbc ⊢
    omega

end StrictWeak

/-- No later entry has a lesser key than an earlier one. -/
def Sorted {α κ : Type} (less : κ → κ → Bool) (key : α → κ) (entries : List (Slot × α)) : Prop :=
  entries.Pairwise fun a b => less (key b.2) (key a.2) = false

namespace Sorted

variable {α κ : Type} {less : κ → κ → Bool} {key : α → κ} {entries before between after : List (Slot × α)}

theorem le_of_getLast? (hless : StrictWeak less) (h : Sorted less key before) {a e : Slot × α}
    (ha : a ∈ before.getLast?) (he : e ∈ before) : less (key a.2) (key e.2) = false := by
  obtain ⟨init, rfl⟩ := List.getLast?_eq_some_iff.mp (Option.mem_def.mp ha)
  obtain he | rfl := List.mem_append.mp he |>.imp_right List.mem_singleton.mp
  · exact (List.pairwise_append.mp h).2.2 e he a (by simp)
  · exact hless.irrefl _

theorem le_of_head? (hless : StrictWeak less) (h : Sorted less key after) {b e : Slot × α}
    (hb : b ∈ after.head?) (he : e ∈ after) : less (key e.2) (key b.2) = false := by
  obtain ⟨rest, rfl⟩ := List.head?_eq_some_iff.mp (Option.mem_def.mp hb)
  obtain rfl | he := List.mem_cons.mp he
  · exact hless.irrefl _
  · exact (List.pairwise_cons.mp h).1 e he

/-- An entry between neighbours that do not belong on its other side keeps the
    order. This is all that an insertion has to see to. -/
theorem insert (hless : StrictWeak less) (h : Sorted less key (before ++ after)) {new : Slot × α}
    (hbefore : ∀ a ∈ before.getLast?, less (key new.2) (key a.2) = false)
    (hafter : ∀ b ∈ after.head?, less (key b.2) (key new.2) = false) :
    Sorted less key (before ++ new :: after) := by
  obtain ⟨hb, ha, hcross⟩ := List.pairwise_append.mp h
  have hnewBefore (e) (he : e ∈ before) : less (key new.2) (key e.2) = false := by
    obtain ⟨a, hlast⟩ := List.getLast?_isSome.mpr (List.ne_nil_of_mem he) |> Option.isSome_iff_exists.mp
    exact hless.false_trans (le_of_getLast? hless hb hlast he) (hbefore a hlast)
  have hnewAfter (e) (he : e ∈ after) : less (key e.2) (key new.2) = false := by
    obtain ⟨b, hhead⟩ := List.isSome_head?.mpr (List.ne_nil_of_mem he) |> Option.isSome_iff_exists.mp
    exact hless.false_trans (hafter b hhead) (le_of_head? hless ha hhead he)
  refine List.pairwise_append.mpr ⟨hb, List.pairwise_cons.mpr ⟨hnewAfter, ha⟩, ?_⟩
  intro x hx y hy
  obtain rfl | hy := List.mem_cons.mp hy
  · exact hnewBefore x hx
  · exact hcross x hx y hy

theorem sublist (h : Sorted less key entries) (hsub : before.Sublist entries) : Sorted less key before :=
  List.Pairwise.sublist hsub h

/-- A place behind the last entry of a part lies behind all of them. -/
theorem right_of_getLast? (hless : StrictWeak less) (h : Sorted less key before) (bound : Bound) (k : κ)
    (hlast : ∀ a ∈ before.getLast?, bound.side less k (key a.2) = .right) {e : Slot × α} (he : e ∈ before) :
    bound.side less k (key e.2) = .right := by
  obtain ⟨a, ha⟩ := List.getLast?_isSome.mpr (List.ne_nil_of_mem he) |> Option.isSome_iff_exists.mp
  have hle := le_of_getLast? hless h ha he
  have hside := hlast a ha
  cases bound with
  | lower =>
    have hlt : less (key a.2) k = true := by simpa [Bound.side] using hside
    simp [Bound.side, hless.lt_of_le_of_lt hle hlt]
  | upper =>
    have hlt : less k (key a.2) = false := by simpa [Bound.side] using hside
    simp [Bound.side, hless.false_trans hle hlt]

/-- A place in front of the first entry of a part lies in front of all of
    them. -/
theorem left_of_head? (hless : StrictWeak less) (h : Sorted less key after) (bound : Bound) (k : κ)
    (hhead : ∀ b ∈ after.head?, bound.side less k (key b.2) = .left) {e : Slot × α} (he : e ∈ after) :
    bound.side less k (key e.2) = .left := by
  obtain ⟨b, hb⟩ := List.isSome_head?.mpr (List.ne_nil_of_mem he) |> Option.isSome_iff_exists.mp
  have hle := le_of_head? hless h hb he
  have hside := hhead b hb
  cases bound with
  | lower =>
    have hlt : less (key b.2) k = false := by simpa [Bound.side] using hside
    simp [Bound.side, hless.false_trans hlt hle]
  | upper =>
    have hlt : less k (key b.2) = true := by simpa [Bound.side] using hside
    simp [Bound.side, hless.lt_of_lt_of_le hlt hle]

end Sorted

namespace Tree

open RedBlack.Action

variable {α κ ε ρ : Type} {key : α → κ} {t u : Tree key} {entries before after : List (Slot × α)}
  {o : Outside α} {item : α} {k : κ}

/-- An order sends equal answers on to the whole part of the entries on their
    side: what the neighbour of a place says, all entries beyond it say. -/
theorem Points.all {bound : Bound} {less : κ → κ → Bool} (hless : StrictWeak less)
    (hsorted : Sorted less key (before ++ after)) (h : Points (bound.side less k) key before after) :
    (∀ e ∈ before, bound.side less k (key e.2) = .right) ∧ ∀ e ∈ after, bound.side less k (key e.2) = .left := by
  obtain ⟨hb, ha, _⟩ := List.pairwise_append.mp hsorted
  exact ⟨fun _ => Sorted.right_of_getLast? hless hb bound k h.before,
    fun _ => Sorted.left_of_head? hless ha bound k h.after⟩

/-- Where a comparator never says less both ways, a search for the end of a
    range turns left only where the one for its start does. -/
theorem left_of_upper {less : κ → κ → Bool} (hless : StrictWeak less) {k stored : κ}
    (hupper : Bound.upper.side less k stored = .left) : Bound.lower.side less k stored = .left := by
  have hgt : less k stored = true := by simpa [Bound.side] using hupper
  simp [Bound.side, hless.asymm hgt]

/-- The bounds of a key enclose a range, be the entries in order or not: the
    lower one never lies behind the upper. -/
theorem Represents.equalRange (h : t.Represents entries o) (hless : StrictWeak t.less) (k : κ) :
    ∃ before between after : List (Slot × α), entries = before ++ between ++ after ∧
      (t.equalRange k).answer = .ok (t.position ((between ++ after).head?.map Prod.fst),
        t.position (after.head?.map Prod.fst)) ∧
      Points (Bound.lower.side t.less k) key before (between ++ after) ∧
      Points (Bound.upper.side t.less k) key (before ++ between) after := by
  obtain ⟨p, before, rest, _, rfl, hlow, hlower, _, hp, hlowerSides⟩ := h.trail_sides .lower k
  obtain ⟨q, upTo, after, _, hsplit, hup, hupper, _, hq, hupperSides⟩ := h.trail_sides .upper k
  have hrun : (t.equalRange k).answer = .ok (t.position (rest.head?.map Prod.fst),
      t.position (after.head?.map Prod.fst)) := by
    simp [Tree.equalRange, Tree.lowerBound, Tree.upperBound, hlow.bound hlower, hup.bound hupper]
  have hle : before.length ≤ upTo.length := by
    have hturns : ∀ f ∈ p, ∀ g ∈ q, f.slot = g.slot → g.side = .left → f.side = .left := by
      intro f hf g hg hslot hleft
      have hmem : g.slot ∈ t.shape.slots := by
        rw [← hup.fill]
        exact Path.slot_mem_slots_fill .nil hg
      rw [h.slots] at hmem
      obtain ⟨e, he, heq⟩ := List.mem_map.mp hmem
      rw [hlowerSides f hf e he (heq.trans hslot.symm)]
      exact left_of_upper hless ((hupperSides g hg e he heq).symm.trans hleft)
    have hlength := Path.length_slotsBefore_le (hlow.fill.trans hup.fill.symm) hturns
    rwa [hlow.before, hup.before, List.length_map, List.length_map] at hlength
  obtain ⟨between, rfl, rfl⟩ : ∃ between, upTo = before ++ between ∧ rest = between ++ after := by
    obtain hbetween | ⟨overlap, rfl, rfl⟩ := List.append_eq_append_iff.mp hsplit
    · exact hbetween
    · rw [List.length_append] at hle
      obtain rfl : overlap = [] := List.eq_nil_of_length_eq_zero (by omega)
      exact ⟨[], by simp, by simp⟩
  exact ⟨before, between, after, by simp, hrun, hp, hq⟩

theorem Represents.eraseKey (h : t.Represents entries o) (hless : StrictWeak t.less) (k : κ) :
    (eraseKey k : Op key Nat).Yields t fun answer u => ∃ before between after : List (Slot × α),
      entries = before ++ between ++ after ∧ answer = between.length ∧
      Points (Bound.lower.side t.less k) key before (between ++ after) ∧
      Points (Bound.upper.side t.less k) key (before ++ between) after ∧ u.Continues t ∧
      u.Represents (before ++ after) o := by
  obtain ⟨before, between, after, rfl, hrun, hp, hq⟩ := h.equalRange hless k
  rw [Tree.eraseKey, Yields, wp_bind, wp_ask_ok (s := t) hrun]
  simp only
  rw [wp_bind, wp_view, wp_bind]
  refine (h.eraseRange rfl rfl rfl rfl).mono ?_
  rintro _ u ⟨_, hu, hrep⟩
  have hcount : checkedSub t.size u.size = .ok between.length := by
    have hsize : t.size = u.size + between.length := by
      simp only [h.size, hrep.size, List.length_append]
      omega
    have hle : u.size ≤ t.size := by omega
    rw [checkedSub, if_pos hle, hsize, Nat.add_sub_cancel_left]
  rw [wp_look_ok (s := u) hcount]
  exact ⟨before, between, after, rfl, rfl, hp, hq, hu, hrep⟩

end Tree

end RedBlack
