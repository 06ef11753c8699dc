import RedBlack.Proofs.Classes
import RedBlack.Proofs.Tree.Indices

namespace RedBlack

section Scan

variable {α κ : Type} {less : κ → κ → Bool} {key : α → κ} {k : κ} {before between after : List α} {x : α} {i : Nat}

/-- Where no item of a part passes and the first one behind it does, a scan
    stops behind that part. -/
theorem findIdx_behind {p : α → Bool} (hbefore : ∀ x ∈ before, p x = false) (hafter : ∀ x ∈ after.head?, p x = true) :
    (before ++ after).findIdx p = before.length := by
  have hnone : before.findIdx p = before.length := List.findIdx_eq_length.mpr hbefore
  have hhead : after.findIdx p = 0 := by
    cases after with
    | nil => rfl
    | cons x rest => rw [List.findIdx_cons, hafter x rfl, cond_true]
  rw [List.findIdx_append, hnone, hhead, if_neg (Nat.lt_irrefl _), Nat.zero_add]

namespace Parted

variable (h : Parted less key k before between after)
include h

theorem findIdx_not_less (hless : StrictWeak less) :
    (before ++ between ++ after).findIdx (fun x => !less (key x) k) = before.length := by
  obtain ⟨hbefore, hafter⟩ := h.begins hless
  rw [List.append_assoc]
  exact findIdx_behind hbefore hafter

theorem findIdx_less (hless : StrictWeak less) :
    (before ++ between ++ after).findIdx (fun x => less k (key x)) = (before ++ between).length := by
  obtain ⟨hbefore, hafter⟩ := h.ends hless
  exact findIdx_behind hbefore hafter

/-- A scan for the class stops at its first item; for an empty class it goes
    over everything. -/
theorem findIdx_alike : (before ++ between ++ after).findIdx (fun x => alike less k (key x)) =
    if between = [] then (before ++ between ++ after).length else before.length := by
  have hbefore : ∀ x ∈ before, alike less k (key x) = false := fun x hx => alike_eq_false_of_greater (h.before x hx)
  split
  · next hnil =>
    subst hnil
    rw [List.findIdx_eq_length, List.append_nil]
    intro x hx
    obtain hx | hx := List.mem_append.mp hx
    · exact hbefore x hx
    · exact alike_eq_false_of_less (h.after x hx)
  · next hne =>
    rw [List.append_assoc]
    apply findIdx_behind hbefore
    intro x hx
    rw [List.head?_append_of_ne_nil _ hne] at hx
    exact h.between x (List.mem_of_mem_head? hx)

theorem between_eq_nil_iff : between = [] ↔ ∀ x ∈ before ++ between ++ after, alike less k (key x) = false := by
  have hfilter := List.filter_eq_nil_iff (l := before ++ between ++ after) (p := fun x => alike less k (key x))
  rw [h.filter_eq] at hfilter
  simpa using hfilter

theorem countP_eq : (before ++ between ++ after).countP (fun x => alike less k (key x)) = between.length := by
  rw [List.countP_eq_length_filter, h.filter_eq]

/-- Without its class, a key has only what comes before it and what comes after
    it. -/
theorem filter_not_eq : (before ++ between ++ after).filter (fun x => !alike less k (key x)) = before ++ after := by
  have hbefore : before.filter (fun x => !alike less k (key x)) = before := by
    rw [List.filter_eq_self]
    intro x hx
    simp [alike_eq_false_of_greater (h.before x hx)]
  have hafter : after.filter (fun x => !alike less k (key x)) = after := by
    rw [List.filter_eq_self]
    intro x hx
    simp [alike_eq_false_of_less (h.after x hx)]
  have hbetween : between.filter (fun x => !alike less k (key x)) = [] := by
    rw [List.filter_eq_nil_iff]
    intro x hx
    simp [h.between x hx]
  rw [List.filter_append, List.filter_append, hbefore, hbetween, hafter, List.append_nil]

theorem alike_iff (hx : (before ++ between ++ after)[i]? = some x) :
    before.length ≤ i ∧ i < (before ++ between).length ↔ alike less k (key x) = true := by
  by_cases hupper : i < (before ++ between).length
  · rw [List.getElem?_append_left hupper] at hx
    by_cases hlower : i < before.length
    · rw [List.getElem?_append_left hlower] at hx
      have hother := alike_eq_false_of_greater (h.before x (List.mem_of_getElem? hx))
      simp only [hother, Bool.false_eq_true, iff_false]
      omega
    · rw [List.getElem?_append_right (Nat.le_of_not_lt hlower)] at hx
      simp only [h.between x (List.mem_of_getElem? hx), hupper, iff_true, and_true]
      omega
  · rw [List.getElem?_append_right (Nat.le_of_not_lt hupper)] at hx
    have hother := alike_eq_false_of_less (h.after x (List.mem_of_getElem? hx))
    simp only [hother, Bool.false_eq_true, iff_false]
    omega

end Parted

end Scan

namespace Tree

variable {α κ ε : Type} {key : α → κ} {t : Tree key} {entries lower middle upper : List (Slot × α)}
  {o : Outside α} {k : κ}

/-- How many entries come before the first one whose key is not less. -/
def lowerIndex (t : Tree key) (k : κ) (entries : List (Slot × α)) : Nat :=
  entries.findIdx fun e => !t.less (key e.2) k

/-- How many entries come before the first one whose key is greater. -/
def upperIndex (t : Tree key) (k : κ) (entries : List (Slot × α)) : Nat :=
  entries.findIdx fun e => t.less k (key e.2)

section Parted

variable (hless : StrictWeak t.less)
  (hparted : Parted t.less (fun e : Slot × α => key e.2) k lower middle upper)
include hless hparted

theorem lowerIndex_parted : t.lowerIndex k (lower ++ middle ++ upper) = lower.length :=
  hparted.findIdx_not_less hless

theorem upperIndex_parted : t.upperIndex k (lower ++ middle ++ upper) = (lower ++ middle).length :=
  hparted.findIdx_less hless

end Parted

/-- What a linear scan of the entries from the first one on says of the searches
    for a key: each comes to the position with the index at which a scan
    stops. -/
structure ScansAs (t : Tree key) (k : κ) (entries : List (Slot × α)) : Prop where
  lowerBound : (t.lowerBound k).answer = .ok (t.nth (t.lowerIndex k entries))
  upperBound : (t.upperBound k).answer = .ok (t.nth (t.upperIndex k entries))
  equalRange : (t.equalRange k).answer = .ok (t.nth (t.lowerIndex k entries), t.nth (t.upperIndex k entries))
  /-- The range holds just the items with an equivalent key. -/
  range : ∀ i e, entries[i]? = some e →
    (t.lowerIndex k entries ≤ i ∧ i < t.upperIndex k entries ↔ alike t.less k (key e.2) = true)
  walkEqual : ∃ w, (t.walkEqual k).answer = .ok w ∧
    ∃ w', w.rest .left = .ok ((entries.filter fun e => alike t.less k (key e.2)).map Prod.snd, w')
  find : (t.find k).answer = .ok (t.nth (entries.findIdx fun e => alike t.less k (key e.2)))
  find_end : (t.find k).answer = .ok t.finish ↔ ∀ e ∈ entries, alike t.less k (key e.2) = false
  contains : (t.contains k).answer = .ok (decide (t.lowerIndex k entries < t.upperIndex k entries))
  count : (t.count k).answer = .ok (t.upperIndex k entries - t.lowerIndex k entries)

namespace Represents

theorem nth_of_length_le {i : Nat} (h : t.Represents entries o) (hi : entries.length ≤ i) : t.nth i = t.finish := by
  rw [h.nth_eq, List.getElem?_eq_none hi]
  rfl

/-- The scan for a class ends at the position of its first item. -/
theorem nth_alike (h : t.Represents (lower ++ middle ++ upper) o)
    (hparted : Parted t.less (fun e : Slot × α => key e.2) k lower middle upper) :
    t.nth ((lower ++ middle ++ upper).findIdx fun e => RedBlack.alike t.less k (key e.2)) =
      t.position (middle.head?.map Prod.fst) := by
  rw [hparted.findIdx_alike]
  split
  · next hnil =>
    rw [h.nth_of_length_le (Nat.le_refl _), hnil]
    rfl
  · next hne =>
    rw [List.append_assoc] at h
    rw [h.nth_length, List.head?_append_of_ne_nil _ hne]

section Order

variable (h : t.Represents entries o) (hless : StrictWeak t.less) (hsorted : Sorted t.less key entries) (k : κ)
include h hless hsorted

theorem walkEqual_filter : ∃ w, (t.walkEqual k).answer = .ok w ∧
    ∃ w', w.rest .left = .ok ((entries.filter fun e => RedBlack.alike t.less k (key e.2)).map Prod.snd, w') := by
  obtain ⟨w, lower, middle, upper, rfl, hwalk, hcovers, hview, hbegins, hends⟩ := h.walkEqual hless k
  obtain ⟨w', hrest⟩ := hcovers.rest_left
  refine ⟨w, hwalk, w', ?_⟩
  rw [hrest, (hbegins.parted hless hsorted hends).filter_eq, hview]
  rfl

theorem count_alike : (t.count k).answer = .ok (entries.countP fun e => RedBlack.alike t.less k (key e.2)) := by
  obtain ⟨lower, middle, upper, rfl, hcount, hbegins, hends⟩ := h.count hless k
  rw [hcount, (hbegins.parted hless hsorted hends).countP_eq]

/-- Under a comparator that orders, every search comes to what the scan says. -/
theorem scansAs : t.ScansAs k entries := by
  have hwalk := h.walkEqual_filter hless hsorted k
  have hcount := h.count_alike hless hsorted k
  obtain ⟨lower, middle, upper, rfl, hbounds⟩ := h.bounds hless hsorted k
  have hparted := hbounds.parted
  have hlower := lowerIndex_parted hless hparted
  have hupper := upperIndex_parted hless hparted
  have hfirst : t.nth lower.length = t.position ((middle ++ upper).head?.map Prod.fst) := by
    rw [List.append_assoc] at h
    exact h.nth_length
  have hlast : t.nth (lower ++ middle).length = t.position (upper.head?.map Prod.fst) := h.nth_length
  constructor
  · rw [hlower, hfirst, hbounds.lowerBound]
  · rw [hupper, hlast, hbounds.upperBound]
  · rw [hlower, hupper, hfirst, hlast]
    simp [Tree.equalRange, hbounds.lowerBound, hbounds.upperBound]
  · intro i e he
    rw [hlower, hupper]
    exact hparted.alike_iff he
  · exact hwalk
  · rw [h.nth_alike hparted, hbounds.find]
  · rw [hbounds.find, ← hparted.between_eq_nil_iff]
    cases middle with
    | nil => simp [Tree.finish]
    | cons e rest => simp [Tree.finish, Tree.position]
  · rw [Tree.contains, Query.answer_bind, hbounds.find, hlower, hupper]
    cases middle with
    | nil => simp [Position.isEnd, Tree.position]
    | cons e rest => simp [Position.isEnd, Tree.position]
  · rw [hcount, hparted.countP_eq, hlower, hupper, List.length_append, Nat.add_sub_cancel_left]

end Order

end Represents

/-- Lookups agree with a linear scan. The bounds of a key are the first position
    whose key is not less and the first one whose key is greater, or else the
    end. The range between them holds just the items with an equivalent key; the
    first of them is found, they are counted, and the end is found only if there
    are none. -/
theorem lookups_agree_with_scan {f : Forest key}
    (hf : f.Reachable fun f (c : Forest.Command α κ ε) => c.OnLive f ∧ c.KeepsOrder f) (ht : t ∈ f.trees) :
    ∃ entries, t.listing = .ok entries ∧ ∀ k, t.ScansAs k entries := by
  obtain ⟨entries, o, h, hless, hsorted⟩ := hf.represents_sorted ht
  exact ⟨entries, h.listing, h.scansAs hless hsorted⟩

/-- Among 1, 3, 3 and 5 the range of 3 goes from index 1 up to index 3; there is
    no 4. -/
theorem lookups_agree_with_scan_duplicates :
    ∃ t : Tree (id : Nat → Nat), t.listing = .ok [(1, 1), (2, 3), (3, 3), (0, 5)] ∧
      (t.equalRange 3).answer = .ok (t.nth 1, t.nth 3) ∧ (t.find 3).answer = .ok (t.nth 1) ∧
      (t.count 3).answer = .ok 2 ∧ (t.find 4).answer = .ok t.finish ∧ (t.contains 4).answer = .ok false := by
  have h₀ : Forest.Reachable (fun f (c : Forest.Command Nat Nat Empty) => c.OnLive f ∧ c.KeepsOrder f)
    (.empty (id : Nat → Nat)) := .empty
  have h₁ := h₀.step (c := .plant (fun a b => decide (a < b)) (.arena .empty))
    ⟨Arena.sound_empty, StrictWeak.decide_lt⟩
  have h₂ := h₁.step (c := .onTree 0 (.insertEqual 5)) ⟨⟨_, rfl, nofun⟩, trivial⟩
  have h₃ := h₂.step (c := .onTree 0 (.insertEqual 1)) ⟨⟨_, rfl, nofun⟩, trivial⟩
  have h₄ := h₃.step (c := .onTree 0 (.insertEqual 3)) ⟨⟨_, rfl, nofun⟩, trivial⟩
  have h₅ := h₄.step (c := .onTree 0 (.insertEqual 3)) ⟨⟨_, rfl, nofun⟩, trivial⟩
  obtain ⟨entries, hlisting, hscans⟩ := lookups_agree_with_scan h₅ (Array.mem_of_getElem? (i := 0) rfl)
  obtain rfl : entries = [(1, 1), (2, 3), (3, 3), (0, 5)] := Except.ok.inj (hlisting.symm.trans (by decide +kernel))
  exact ⟨_, hlisting, (hscans 3).equalRange, (hscans 3).find, (hscans 3).count, (hscans 4).find_end.mpr (by decide),
    (hscans 4).contains⟩

end Tree

end RedBlack
