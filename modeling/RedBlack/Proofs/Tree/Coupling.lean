import Mathlib.Logic.Equiv.Basic
import RedBlack.Proofs.Matching
import RedBlack.Proofs.Shape.Renaming
import RedBlack.Proofs.Tree.Requests

namespace RedBlack

def Vacancy.rename (f : Slot → Slot) : Vacancy → Vacancy
  | vacant place => vacant (place.rename f)
  | occupied slot => occupied (f slot)

/-- Walks down that turn alike come by the same nodes, under other names. -/
theorem Shape.descend_rename {κ : Type} {f : Slot → Slot} {turn turn' : Slot → Query κ Side} {met : Slot → Prop}
    (t : Shape) (trail : Trail) (hturn : ∀ s ∈ t.slots, Query.Matched Eq (turn s) (turn' (f s)))
    (hmet : ∀ s ∈ t.slots, met s) (htrail : ∀ step ∈ trail, met step.1) :
    Query.Matched (fun x y => y = x.map (Prod.map f id) ∧ ∀ step ∈ x, met step.1) (t.descend turn trail)
      ((t.rename f).descend turn' (trail.map (Prod.map f id))) := by
  induction t generalizing trail with
  | nil => exact .pure ⟨rfl, htrail⟩
  | node color left slot right ihl ihr =>
    simp only [slots, List.mem_append, List.mem_cons] at hturn hmet
    rw [rename_node, descend, descend]
    refine (hturn slot (.inr (.inl rfl))).bind ?_
    rintro side _ rfl
    have hstep : ∀ step ∈ (slot, side) :: trail, met step.1 :=
      List.forall_mem_cons.mpr ⟨hmet slot (.inr (.inl rfl)), htrail⟩
    cases side with
    | left => exact ihl _ (fun s hs => hturn s (.inl hs)) (fun s hs => hmet s (.inl hs)) hstep
    | right => exact ihr _ (fun s hs => hturn s (.inr (.inr hs))) (fun s hs => hmet s (.inr (.inr hs))) hstep

namespace Tree

variable {α κ ε ρ ρ' : Type} {key : α → κ}

/-- The second tree is the first one with its slots renamed, with the same
    colours, items and comparator; each of them lies beside other things in its
    own store, and whatever else is to be known of the two stores is said by
    `K`. -/
structure Coupled (K : Equiv.Perm Slot → Store α → Store α → Prop) (σ : Equiv.Perm Slot) (t u : Tree key)
    (entries : List (Slot × α)) (o o' : Outside α) : Prop where
  left : t.Represents entries o
  right : u.Represents (entries.map (Prod.map σ id)) o'
  shape : u.shape = t.shape.rename σ
  less : u.less = t.less
  store : K σ t.store u.store

/-- The position in another tree at the same place of the order; the end goes to
    the end. -/
def counterpart (t u : Tree key) (p : Position) : Position where
  slot := p.slot.bind fun slot => u.shape.slots[t.shape.slots.idxOf slot]?
  tag := u.tag

/-- A slot of the tree and its name in the other one; none goes with none. -/
def Corresponds (t : Tree key) (σ : Equiv.Perm Slot) (a b : Option Slot) : Prop :=
  b = a.map σ ∧ ∀ slot, a = some slot → slot ∈ t.shape.slots

/-- A position of the tree and its name in the other one. -/
def Pairs (t : Tree key) (σ : Equiv.Perm Slot) (u : Tree key) (p q : Position) : Prop :=
  p.tag = t.tag ∧ q.tag = u.tag ∧ t.Corresponds σ p.slot q.slot

variable {K : Equiv.Perm Slot → Store α → Store α → Prop} {σ : Equiv.Perm Slot} {t u : Tree key}
  {entries : List (Slot × α)} {o o' : Outside α} {a b : Option Slot} {slot : Slot} {k : κ} {p : Position}

theorem Corresponds.none : t.Corresponds σ none none :=
  ⟨rfl, nofun⟩

theorem Corresponds.some (h : slot ∈ t.shape.slots) : t.Corresponds σ (some slot) (some (σ slot)) := by
  refine ⟨rfl, ?_⟩
  rintro _ ⟨⟩
  exact h

/-- Where a node must be, there is one on both sides or on neither. -/
theorem Corresponds.dereference (h : t.Corresponds σ a b) :
    Matched (fun x y => y = σ x ∧ x ∈ t.shape.slots) (dereference a) (dereference b) := by
  obtain ⟨rfl, hmem⟩ := h
  cases a with
  | none => rfl
  | some slot => exact ⟨rfl, hmem slot rfl⟩

theorem position_pairs (hab : t.Corresponds σ a b) : t.Pairs σ u (t.position a) (u.position b) :=
  ⟨rfl, rfl, hab⟩

/-- Two replies that name the same places of two trees: those of the first one
    are places of its tree, and the second one names their counterparts. -/
def Reply.Mirrors (t u : Tree key) (x y : Reply α ε) : Prop :=
  (∀ p ∈ x.positions, t.LiveOrEnd p) ∧ y = x.move (t.counterpart u)

theorem Reply.Mirrors.plain {reply : Reply α ε} (hpositions : reply.positions = [])
    (hmove : reply.move (t.counterpart u) = reply) : reply.Mirrors t u reply :=
  ⟨by simp [hpositions], hmove.symm⟩

/-- Two findings that name the same places of two trees. -/
def Finding.Mirrors (t u : Tree key) (x y : Finding key ε) : Prop :=
  (∀ p ∈ x.positions, t.LiveOrEnd p) ∧ y = x.move (t.counterpart u)

theorem Finding.Mirrors.plain {found : Finding key ε} (hpositions : found.positions = [])
    (hmove : found.move (t.counterpart u) = found) : found.Mirrors t u found :=
  ⟨by simp [hpositions], hmove.symm⟩

/-- Two answers that name the same places of two trees. -/
def Response.Mirrors (t u : Tree key) (x y : Response key ε) : Prop :=
  (∀ p ∈ x.positions, t.LiveOrEnd p) ∧ y = x.move (t.counterpart u)

theorem map_eq_iff {a b : Option Slot} : a.map σ = b.map σ ↔ a = b :=
  (Option.map_injective σ.injective).eq_iff

namespace Coupled

variable (h : t.Coupled K σ u entries o o')
include h

theorem exists_split (hslot : slot ∈ t.shape.slots) :
    ∃ before item after, entries = before ++ (slot, item) :: after ∧
      u.Represents (before.map (Prod.map σ id) ++ (σ slot, item) :: after.map (Prod.map σ id)) o' := by
  obtain ⟨before, item, after, rfl⟩ := h.left.exists_entry hslot
  refine ⟨before, item, after, rfl, ?_⟩
  simpa using h.right

theorem itemAt (hslot : slot ∈ t.shape.slots) :
    ∃ item, t.itemAt slot = .ok item ∧ u.itemAt (σ slot) = .ok item := by
  obtain ⟨before, item, after, rfl, hu⟩ := h.exists_split hslot
  exact ⟨item, h.left.itemAt (e := (slot, item)) (by simp), hu.itemAt (e := (σ slot, item)) (by simp)⟩

theorem keyAt (hslot : slot ∈ t.shape.slots) : ∃ c, t.keyAt slot = .ok c ∧ u.keyAt (σ slot) = .ok c := by
  obtain ⟨item, ht, hu⟩ := h.itemAt hslot
  exact ⟨key item, by rw [Tree.keyAt, ht, except_map], by rw [Tree.keyAt, hu, except_map]⟩

theorem size : u.size = t.size := by
  rw [h.right.size, h.left.size, List.length_map]

theorem isEmpty : u.isEmpty = t.isEmpty := by
  simp only [Tree.isEmpty, h.size]

theorem leftmost : t.Corresponds σ t.leftmost u.leftmost := by
  rw [h.left.leftmost, h.right.leftmost]
  refine ⟨by simp [Option.map_map, Function.comp_def], ?_⟩
  intro slot hslot
  rw [h.left.slots]
  obtain ⟨e, he, rfl⟩ := Option.map_eq_some_iff.mp hslot
  exact List.mem_map_of_mem (List.mem_of_mem_head? he)

theorem rightmost : t.Corresponds σ t.rightmost u.rightmost := by
  rw [h.left.rightmost, h.right.rightmost]
  refine ⟨by simp [Option.map_map, Function.comp_def], ?_⟩
  intro slot hslot
  rw [h.left.slots]
  obtain ⟨e, he, rfl⟩ := Option.map_eq_some_iff.mp hslot
  exact List.mem_map_of_mem (List.mem_of_getLast? he)

theorem beside (side : Side) (hslot : slot ∈ t.shape.slots) :
    Matched (t.Corresponds σ) (t.beside side slot) (u.beside side (σ slot)) := by
  obtain ⟨item, ht, hu⟩ := h.itemAt hslot
  obtain ⟨before, after, hslots⟩ := List.append_of_mem hslot
  obtain ⟨next, hnext, hmem⟩ : ∃ next, t.shape.neighbour side slot = some next ∧
      ∀ s, next = some s → s ∈ t.shape.slots := by
    cases side with
    | left =>
      refine ⟨_, Shape.neighbour_left h.left.nodup hslots, ?_⟩
      intro s hs
      rw [hslots]
      exact List.mem_append_left _ (List.mem_of_getLast? hs)
    | right =>
      refine ⟨_, Shape.neighbour_right h.left.nodup hslots, ?_⟩
      intro s hs
      rw [hslots]
      exact List.mem_append_right _ (List.mem_cons_of_mem _ (List.mem_of_mem_head? hs))
  have hnext' := Shape.neighbour_rename σ.injective side slot t.shape
  rw [← h.shape, hnext, Option.map_some] at hnext'
  simp only [Tree.beside, ht, hu, ok_bind, hnext, hnext']
  exact ⟨rfl, hmem⟩

/-- A step forward from corresponding slots leads to corresponding slots. -/
theorem successor (hab : t.Corresponds σ a b) : Matched (t.Corresponds σ) (t.successor a) (u.successor b) := by
  obtain ⟨rfl, hmem⟩ := hab
  cases a with
  | none => rfl
  | some slot => exact h.beside .right (hmem slot rfl)

/-- A step back from corresponding slots leads to corresponding slots. -/
theorem predecessor (hab : t.Corresponds σ a b) :
    Matched (fun x y => y = σ x ∧ x ∈ t.shape.slots) (t.predecessor a) (u.predecessor b) := by
  obtain ⟨rfl, hmem⟩ := hab
  cases a with
  | none =>
    simp only [Option.map_none, Tree.predecessor, h.isEmpty]
    split
    · rfl
    · obtain ⟨hlast, hlive⟩ := h.rightmost
      rw [hlast]
      cases hright : t.rightmost with
      | none => rfl
      | some last => exact ⟨rfl, hlive last hright⟩
  | some slot =>
    refine (h.beside .left (hmem slot rfl)).bind ?_
    rintro before _ ⟨rfl, hbefore⟩
    cases before with
    | none => rfl
    | some before => exact ⟨rfl, hbefore before rfl⟩

theorem compare (k l : κ) : Query.Matched Eq (Query.compare t.less k l) (Query.compare u.less k l) := by
  rw [h.less]
  exact .compare _ _ _

section Compare

variable {R : ρ → ρ' → Prop} {next : Bool → Query κ ρ} {next' : Bool → Query κ ρ'}

theorem stored_less (k : κ) (hslot : slot ∈ t.shape.slots)
    (hnext : ∀ less, Query.Matched R (next less) (next' less)) :
    Query.Matched R (do next (← Query.compare t.less (← t.keyAt slot) k))
      (do next' (← Query.compare u.less (← u.keyAt (σ slot)) k)) := by
  obtain ⟨stored, ht, hu⟩ := h.keyAt hslot
  rw [ht, hu]
  refine Query.Matched.bind (Query.Matched.lift (R := Eq) rfl) ?_
  rintro stored _ rfl
  refine (h.compare _ _).bind ?_
  rintro less _ rfl
  exact hnext less

theorem less_stored (k : κ) (hslot : slot ∈ t.shape.slots)
    (hnext : ∀ less, Query.Matched R (next less) (next' less)) :
    Query.Matched R (do next (← Query.compare t.less k (← t.keyAt slot)))
      (do next' (← Query.compare u.less k (← u.keyAt (σ slot)))) := by
  obtain ⟨stored, ht, hu⟩ := h.keyAt hslot
  rw [ht, hu]
  refine Query.Matched.bind (Query.Matched.lift (R := Eq) rfl) ?_
  rintro stored _ rfl
  refine (h.compare _ _).bind ?_
  rintro less _ rfl
  exact hnext less

end Compare

theorem turn (bound : Bound) (k : κ) (hslot : slot ∈ t.shape.slots) :
    Query.Matched Eq (t.turn bound k slot) (u.turn bound k (σ slot)) := by
  cases bound with
  | lower => exact h.stored_less k hslot fun _ => .pure rfl
  | upper => exact h.less_stored k hslot fun _ => .pure rfl

/-- Searches come by corresponding slots, after the same comparisons. -/
theorem trail (bound : Bound) (k : κ) :
    Query.Matched (fun x y => y = x.map (Prod.map σ id) ∧ ∀ step ∈ x, step.1 ∈ t.shape.slots) (t.trail bound k)
      (u.trail bound k) := by
  rw [Tree.trail, Tree.trail, h.shape]
  exact t.shape.descend_rename [] (fun _ => h.turn bound k) (fun _ hs => hs) (by simp)

theorem bound (bound : Bound) (k : κ) : Query.Matched (t.Corresponds σ) (t.bound bound k) (u.bound bound k) := by
  refine (h.trail bound k).bind ?_
  rintro trail _ ⟨rfl, hmem⟩
  refine .pure ⟨?_, ?_⟩
  · simp [List.find?_map, Function.comp_def, Option.map_map]
  · intro slot hslot
    obtain ⟨step, hstep, rfl⟩ := Option.map_eq_some_iff.mp hslot
    exact hmem step (List.mem_of_find?_eq_some hstep)

theorem lowerBound (k : κ) : Query.Matched (t.Pairs σ u) (t.lowerBound k) (u.lowerBound k) :=
  (h.bound .lower k).bind fun _ _ hab => .pure (position_pairs hab)

theorem upperBound (k : κ) : Query.Matched (t.Pairs σ u) (t.upperBound k) (u.upperBound k) :=
  (h.bound .upper k).bind fun _ _ hab => .pure (position_pairs hab)

theorem equalRange (k : κ) :
    Query.Matched (fun x y => t.Pairs σ u x.1 y.1 ∧ t.Pairs σ u x.2 y.2) (t.equalRange k) (u.equalRange k) :=
  (h.lowerBound k).bind fun _ _ hfirst => (h.upperBound k).bind fun _ _ hlast => .pure ⟨hfirst, hlast⟩

theorem find (k : κ) : Query.Matched (t.Pairs σ u) (t.find k) (u.find k) := by
  refine (h.bound .lower k).bind ?_
  rintro a _ ⟨rfl, hmem⟩
  cases a with
  | none => exact .pure (position_pairs .none)
  | some slot =>
    refine h.less_stored k (hmem slot rfl) ?_
    intro less
    cases less
    · exact .pure (position_pairs (.some (hmem slot rfl)))
    · exact .pure (position_pairs .none)

theorem contains (k : κ) : Query.Matched Eq (t.contains k) (u.contains k) := by
  refine (h.find k).bind ?_
  rintro p q ⟨_, _, hpq, _⟩
  refine .pure ?_
  rw [Position.isEnd, Position.isEnd, hpq, Option.isNone_map]

theorem gap (before after : Slot) :
    Matched (fun x y => y = x.rename σ) (t.gap before after) (u.gap (σ before) (σ after)) := by
  have hvacant := Shape.vacant?_rename σ.injective .right before t.shape
  rw [Tree.gap, Tree.gap, h.shape, hvacant]
  cases t.shape.vacant? .right before with
  | none => rfl
  | some free => cases free <;> rfl

theorem gap_vacant (before after : Slot) :
    Query.Matched (fun v w => w = v.rename σ) (do return Vacancy.vacant (← t.gap before after) : Query κ Vacancy)
      (do return Vacancy.vacant (← u.gap (σ before) (σ after))) := by
  refine Query.Matched.bind (Query.Matched.lift (h.gap before after)) ?_
  rintro place _ rfl
  exact .pure rfl

theorem leftmost_iff : u.leftmost = some (σ slot) ↔ t.leftmost = some slot := by
  rw [h.leftmost.1, ← Option.map_some, map_eq_iff]

theorem rightmost_iff : u.rightmost = some (σ slot) ↔ t.rightmost = some slot := by
  rw [h.rightmost.1, ← Option.map_some, map_eq_iff]

theorem uniquePlace (k : κ) :
    Query.Matched (fun v w => w = v.rename σ) (t.uniquePlace k) (u.uniquePlace k) := by
  refine (h.trail .upper k).bind ?_
  rintro trail _ ⟨rfl, hmem⟩
  cases trail with
  | nil => exact .pure rfl
  | cons step rest =>
    obtain ⟨parent, side⟩ := step
    have hparent : parent ∈ t.shape.slots := hmem _ List.mem_cons_self
    have hbefore (before : Slot) (hbefore : before ∈ t.shape.slots) :
        Query.Matched (fun v w => w = v.rename σ)
          (do
            if ← Query.compare t.less (← t.keyAt before) k then return Vacancy.vacant (.under parent side)
            else return .occupied before)
          (do
            if ← Query.compare u.less (← u.keyAt (σ before)) k then return .vacant (.under (σ parent) side)
            else return .occupied (σ before)) := by
      refine h.stored_less k hbefore ?_
      intro less
      cases less <;> exact .pure rfl
    simp only [List.map_cons, Prod.map_apply, id, h.leftmost_iff]
    split
    · exact .pure rfl
    · cases side with
      | left =>
        refine Query.Matched.bind (.lift (h.predecessor (.some hparent))) ?_
        rintro before _ ⟨rfl, hmem⟩
        exact hbefore before hmem
      | right =>
        refine (Query.Matched.pure (R := fun x y => y = σ x ∧ x ∈ t.shape.slots) ⟨rfl, hparent⟩).bind ?_
        rintro before _ ⟨rfl, hmem⟩
        exact hbefore before hmem

theorem equalPlace (bound : Bound) (k : κ) :
    Query.Matched (fun x y => y = x.rename σ) (t.equalPlace bound k) (u.equalPlace bound k) := by
  refine (h.trail bound k).bind ?_
  rintro trail _ ⟨rfl, hmem⟩
  cases trail with
  | nil => exact .pure rfl
  | cons step rest =>
    refine (h.turn bound k (hmem _ List.mem_cons_self)).bind ?_
    rintro side _ rfl
    exact .pure rfl

theorem hintedUniquePlace (hab : t.Corresponds σ a b) (k : κ) :
    Query.Matched (fun v w => w = v.rename σ) (t.hintedUniquePlace a k) (u.hintedUniquePlace b k) := by
  have hplain := h.uniquePlace k
  obtain ⟨rfl, hmem⟩ := hab
  cases a with
  | none =>
    simp only [Option.map_none, Tree.hintedUniquePlace, h.isEmpty]
    split
    · exact hplain
    · refine Query.Matched.bind (.lift h.rightmost.dereference) ?_
      rintro last _ ⟨rfl, hlast⟩
      refine h.stored_less k hlast ?_
      intro less
      cases less
      · exact hplain
      · exact .pure rfl
  | some slot =>
    have hslot := hmem slot rfl
    simp only [Option.map_some, Tree.hintedUniquePlace, h.leftmost_iff, h.rightmost_iff]
    obtain ⟨stored, ht, hu⟩ := h.keyAt hslot
    rw [ht, hu]
    refine Query.Matched.bind (Query.Matched.lift (R := Eq) rfl) ?_
    rintro stored _ rfl
    refine (h.compare k stored).bind ?_
    rintro below _ rfl
    cases below
    · refine (h.compare stored k).bind ?_
      rintro above _ rfl
      cases above
      · exact .pure rfl
      · simp only [if_true]
        split
        · exact .pure rfl
        · refine Query.Matched.bind (.lift (h.successor (.some hslot))) ?_
          intro after after' hcorresponds
          refine Query.Matched.bind (.lift hcorresponds.dereference) ?_
          rintro after _ ⟨rfl, hafter⟩
          refine h.less_stored k hafter ?_
          intro less
          cases less
          · exact hplain
          · exact h.gap_vacant slot after
    · simp only [if_true]
      split
      · exact .pure rfl
      · refine Query.Matched.bind (.lift (h.predecessor (.some hslot))) ?_
        rintro before _ ⟨rfl, hbefore⟩
        refine h.stored_less k hbefore ?_
        intro less
        cases less
        · exact hplain
        · exact h.gap_vacant before slot

theorem hintedEqualPlace (hab : t.Corresponds σ a b) (k : κ) :
    Query.Matched (fun x y => y = x.rename σ) (t.hintedEqualPlace a k) (u.hintedEqualPlace b k) := by
  have hupper := h.equalPlace .upper k
  have hlower := h.equalPlace .lower k
  obtain ⟨rfl, hmem⟩ := hab
  cases a with
  | none =>
    simp only [Option.map_none, Tree.hintedEqualPlace, h.isEmpty]
    split
    · exact hupper
    · refine Query.Matched.bind (.lift h.rightmost.dereference) ?_
      rintro last _ ⟨rfl, hlast⟩
      refine h.less_stored k hlast ?_
      intro less
      cases less
      · exact .pure rfl
      · exact hupper
  | some slot =>
    have hslot := hmem slot rfl
    simp only [Option.map_some, Tree.hintedEqualPlace, h.leftmost_iff, h.rightmost_iff]
    refine h.stored_less k hslot ?_
    intro less
    cases less
    · simp only [Bool.false_eq_true, if_false]
      split
      · exact .pure rfl
      · refine Query.Matched.bind (.lift (h.predecessor (.some hslot))) ?_
        rintro before _ ⟨rfl, hbefore⟩
        refine h.less_stored k hbefore ?_
        intro less
        cases less
        · exact .lift (h.gap before slot)
        · exact hupper
    · simp only [if_true]
      split
      · exact .pure rfl
      · refine Query.Matched.bind (.lift (h.successor (.some hslot))) ?_
        intro after after' hcorresponds
        refine Query.Matched.bind (.lift hcorresponds.dereference) ?_
        rintro after _ ⟨rfl, hafter⟩
        refine h.stored_less k hafter ?_
        intro less
        cases less
        · exact .lift (h.gap slot after)
        · exact hlower

end Coupled

end Tree

end RedBlack
