import RedBlack.Proofs.Order

namespace RedBlack

variable {α κ : Type} {less : κ → κ → Bool} {key : α → κ} {a b c k : κ} {before between after : List α}

/-- Neither of two keys comes before the other. Under a comparator that orders,
    the keys alike to a given one form its class. -/
def alike (less : κ → κ → Bool) (a b : κ) : Bool :=
  !less a b && !less b a

theorem alike_eq_true_iff : alike less a b = true ↔ less a b = false ∧ less b a = false := by
  simp [alike]

theorem alike_comm (less : κ → κ → Bool) (a b : κ) : alike less a b = alike less b a := by
  rw [alike, alike, Bool.and_comm]

theorem alike_eq_false_of_less (h : less a b = true) : alike less a b = false := by
  simp [alike, h]

theorem alike_eq_false_of_greater (h : less b a = true) : alike less a b = false := by
  simp [alike, h]

namespace StrictWeak

theorem alike_self (hless : StrictWeak less) (a : κ) : alike less a a = true := by
  rw [alike_eq_true_iff]
  exact ⟨hless.irrefl a, hless.irrefl a⟩

theorem alike_trans (hless : StrictWeak less) (hab : alike less a b = true) (hbc : alike less b c = true) :
    alike less a c = true := by
  rw [alike_eq_true_iff] at hab hbc ⊢
  exact ⟨hless.false_trans hbc.1 hab.1, hless.false_trans hab.2 hbc.2⟩

theorem alike_congr (hless : StrictWeak less) (hab : alike less a b = true) (c : κ) :
    alike less a c = alike less b c := by
  rw [Bool.eq_iff_iff]
  constructor
  · intro hac
    rw [alike_comm] at hab
    exact hless.alike_trans hab hac
  · exact hless.alike_trans hab

end StrictWeak

/-- Ordered items, parted by a key into those before its class, the class, and
    those after it. Where the parts meet is where the searches for the key
    end. -/
structure Parted (less : κ → κ → Bool) (key : α → κ) (k : κ) (before between after : List α) : Prop where
  before : ∀ x ∈ before, less (key x) k = true
  between : ∀ x ∈ between, alike less k (key x) = true
  after : ∀ x ∈ after, less k (key x) = true

namespace Parted

theorem map {β : Type} {f : β → α} {before between after : List β}
    (h : Parted less (fun x => key (f x)) k before between after) :
    Parted less key k (before.map f) (between.map f) (after.map f) where
  before := List.forall_mem_map.mpr h.before
  between := List.forall_mem_map.mpr h.between
  after := List.forall_mem_map.mpr h.after

/-- Under the reverse of the order the parts come from the other end. -/
theorem reverse {before between after : List α} (h : Parted less key k before between after) :
    Parted (fun a b => less b a) key k after.reverse between.reverse before.reverse where
  before x hx := h.after x (List.mem_reverse.mp hx)
  between x hx := (alike_comm less _ _).symm.trans (h.between x (List.mem_reverse.mp hx))
  after x hx := h.before x (List.mem_reverse.mp hx)

theorem filter_eq (h : Parted less key k before between after) :
    (before ++ between ++ after).filter (fun x => alike less k (key x)) = between := by
  have hbefore : before.filter (fun x => alike less k (key x)) = [] := by
    rw [List.filter_eq_nil_iff]
    intro x hx
    simp [alike_eq_false_of_greater (h.before x hx)]
  have hafter : after.filter (fun x => alike less k (key x)) = [] := by
    rw [List.filter_eq_nil_iff]
    intro x hx
    simp [alike_eq_false_of_less (h.after x hx)]
  have hbetween : between.filter (fun x => alike less k (key x)) = between := by
    rw [List.filter_eq_self]
    exact h.between
  rw [List.filter_append, List.filter_append, hbefore, hbetween, hafter, List.nil_append, List.append_nil]

end Parted

/-- Where no item of a part passes and the first one behind it does, that one is
    found. -/
theorem find?_behind {p : α → Bool} (hbefore : ∀ x ∈ before, p x = false) (hafter : ∀ x ∈ after.head?, p x = true) :
    (before ++ after).find? p = after.head? := by
  have hnone : before.find? p = none := by
    rw [List.find?_eq_none]
    intro x hx
    simp [hbefore x hx]
  rw [List.find?_append, hnone, Option.none_or]
  cases after with
  | nil => rfl
  | cons x rest => simp [hafter x rfl]

namespace Parted

/-- Up to the class all items come before the key, and the next one does not. -/
theorem begins (hless : StrictWeak less) (h : Parted less key k before between after) :
    (∀ x ∈ before, (!less (key x) k) = false) ∧ ∀ x ∈ (between ++ after).head?, (!less (key x) k) = true := by
  constructor
  · intro x hx
    simp [h.before x hx]
  · intro x hx
    obtain hmem | hmem := List.mem_append.mp (List.mem_of_mem_head? hx)
    · simp [(alike_eq_true_iff.mp (h.between x hmem)).2]
    · simp [hless.asymm (h.after x hmem)]

/-- Up to the end of the class no item comes after the key, and the next one
    does. -/
theorem ends (hless : StrictWeak less) (h : Parted less key k before between after) :
    (∀ x ∈ before ++ between, less k (key x) = false) ∧ ∀ x ∈ after.head?, less k (key x) = true := by
  constructor
  · intro x hx
    obtain hmem | hmem := List.mem_append.mp hx
    · exact hless.asymm (h.before x hmem)
    · exact (alike_eq_true_iff.mp (h.between x hmem)).1
  · intro x hx
    exact h.after x (List.mem_of_mem_head? hx)

/-- The first item that does not come before a key is the first one of its class
    and what lies behind. -/
theorem find?_not_less (hless : StrictWeak less) (h : Parted less key k before between after) :
    (before ++ between ++ after).find? (fun x => !less (key x) k) = (between ++ after).head? := by
  obtain ⟨hbefore, hafter⟩ := h.begins hless
  rw [List.append_assoc]
  exact find?_behind hbefore hafter

/-- The first item that comes after a key is the first one behind its class. -/
theorem find?_less (hless : StrictWeak less) (h : Parted less key k before between after) :
    (before ++ between ++ after).find? (fun x => less k (key x)) = after.head? := by
  obtain ⟨hbefore, hafter⟩ := h.ends hless
  exact find?_behind hbefore hafter

end Parted

/-- A list is cut in one place only by what holds on one side of the cut and
    fails on the other, so that two searches that cut it so come to the same
    place. -/
theorem cut_unique_of (p : α → Bool) {before' after' : List α} (hsplit : before ++ after = before' ++ after')
    (hbefore : ∀ x ∈ before, p x = true) (hafter : ∀ x ∈ after, p x = false)
    (hbefore' : ∀ x ∈ before', p x = true) (hafter' : ∀ x ∈ after', p x = false) :
    before = before' ∧ after = after' := by
  have hfront {front back : List α} (hfront : ∀ x ∈ front, p x = true) (hback : ∀ x ∈ back, p x = false) :
      (front ++ back).filter p = front := by
    have hnone : back.filter p = [] := by
      rw [List.filter_eq_nil_iff]
      intro x hx
      simp [hback x hx]
    rw [List.filter_append, List.filter_eq_self.mpr hfront, hnone, List.append_nil]
  have hsame : before = before' := by rw [← hfront hbefore hafter, hsplit, hfront hbefore' hafter']
  subst hsame
  exact ⟨rfl, List.append_cancel_left hsplit⟩

namespace Tree

variable {t : Tree key} {o : Outside α} {entries lower middle upper : List (Slot × α)}

theorem Points.parted (hless : StrictWeak less) (hsorted : Sorted less key (lower ++ middle ++ upper))
    (hlower : Points (Bound.lower.side less k) key lower (middle ++ upper))
    (hupper : Points (Bound.upper.side less k) key (lower ++ middle) upper) :
    Parted less (fun e : Slot × α => key e.2) k lower middle upper := by
  have hsorted' : Sorted less key (lower ++ (middle ++ upper)) := by rwa [← List.append_assoc]
  obtain ⟨hbefore, hnotBefore⟩ := hlower.all hless hsorted'
  obtain ⟨hnotAfter, hafter⟩ := hupper.all hless hsorted
  constructor
  · intro e he
    simpa [Bound.side] using hbefore e he
  · intro e he
    rw [alike_eq_true_iff]
    constructor
    · simpa [Bound.side] using hnotAfter e (List.mem_append_right _ he)
    · simpa [Bound.side] using hnotBefore e (List.mem_append_left _ he)
  · intro e he
    simpa [Bound.side] using hafter e he

/-- The lower bound of a key cuts ordered entries where its class begins. -/
theorem Points.begins {before after : List (Slot × α)} (hless : StrictWeak less)
    (hsorted : Sorted less key (lower ++ middle ++ upper))
    (hparted : Parted less (fun e : Slot × α => key e.2) k lower middle upper)
    (hsplit : lower ++ middle ++ upper = before ++ after) (h : Points (Bound.lower.side less k) key before after) :
    before = lower ∧ after = middle ++ upper := by
  rw [hsplit] at hsorted
  obtain ⟨hbefore, hafter⟩ := h.all hless hsorted
  rw [List.append_assoc] at hsplit
  apply cut_unique_of (fun e => less (key e.2) k) hsplit.symm
  · intro e he
    simpa [Bound.side] using hbefore e he
  · intro e he
    simpa [Bound.side] using hafter e he
  · exact hparted.before
  · intro e he
    obtain he | he := List.mem_append.mp he
    · exact (alike_eq_true_iff.mp (hparted.between e he)).2
    · exact hless.asymm (hparted.after e he)

/-- The upper bound of a key cuts ordered entries where its class ends. -/
theorem Points.ends {before after : List (Slot × α)} (hless : StrictWeak less)
    (hsorted : Sorted less key (lower ++ middle ++ upper))
    (hparted : Parted less (fun e : Slot × α => key e.2) k lower middle upper)
    (hsplit : lower ++ middle ++ upper = before ++ after) (h : Points (Bound.upper.side less k) key before after) :
    before = lower ++ middle ∧ after = upper := by
  rw [hsplit] at hsorted
  obtain ⟨hbefore, hafter⟩ := h.all hless hsorted
  apply cut_unique_of (fun e => !less k (key e.2)) hsplit.symm
  · intro e he
    simpa [Bound.side] using hbefore e he
  · intro e he
    simpa [Bound.side] using hafter e he
  · intro e he
    obtain he | he := List.mem_append.mp he
    · simp [hless.asymm (hparted.before e he)]
    · simp [(alike_eq_true_iff.mp (hparted.between e he)).1]
  · intro e he
    simp [hparted.after e he]

/-- The searches for a key agree on where its class begins and ends. -/
structure Bounds (t : Tree key) (k : κ) (lower middle upper : List (Slot × α)) : Prop where
  parted : Parted t.less (fun e : Slot × α => key e.2) k lower middle upper
  lowerBound : (t.lowerBound k).answer = .ok (t.position ((middle ++ upper).head?.map Prod.fst))
  upperBound : (t.upperBound k).answer = .ok (t.position (upper.head?.map Prod.fst))
  find : (t.find k).answer = .ok (t.position (middle.head?.map Prod.fst))

theorem Represents.bounds (h : t.Represents entries o) (hless : StrictWeak t.less)
    (hsorted : Sorted t.less key entries) (k : κ) :
    ∃ lower middle upper : List (Slot × α), entries = lower ++ middle ++ upper ∧ t.Bounds k lower middle upper := by
  obtain ⟨lower, middle, upper, rfl, hrange, hlower, hupper⟩ := h.equalRange hless k
  have hparted := hlower.parted hless hsorted hupper
  obtain ⟨before, after, hsplit, hbegin, hpoints⟩ := h.lowerBound k
  obtain ⟨rfl, rfl⟩ := hpoints.begins hless hsorted hparted hsplit
  obtain ⟨before', after', hsplit', hfind, hpoints'⟩ := h.find k
  obtain ⟨rfl, rfl⟩ := hpoints'.begins hless hsorted hparted hsplit'
  obtain ⟨upTo, behind, _, hend, _⟩ := h.upperBound k
  have hbehind : t.position (behind.head?.map Prod.fst) = t.position (upper.head?.map Prod.fst) := by
    simpa [Tree.equalRange, hbegin, hend] using hrange
  refine ⟨_, middle, upper, rfl, hparted, hbegin, by rw [hend, hbehind], ?_⟩
  rw [hfind]
  cases middle with
  | nil =>
    cases upper with
    | nil => rfl
    | cons e rest => simp [hit, Option.filter, hparted.after e (by simp)]
  | cons e rest => simp [hit, Option.filter, (alike_eq_true_iff.mp (hparted.between e (by simp))).1]

end Tree

end RedBlack
