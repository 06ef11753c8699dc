import Mathlib.Data.List.Induction
import RedBlack.Proofs.Classes

namespace RedBlack

variable {α κ ν : Type} {less : κ → κ → Bool} {key : α → κ} {before between after items : List α} {here : Option α}
  {x : α} {j k : κ}

/-- Every item comes before all later ones, so that no two of them have keys
    alike. -/
def StrictlyAscending (less : κ → κ → Bool) (key : α → κ) (items : List α) : Prop :=
  items.Pairwise fun a b => less (key a) (key b) = true

/-- The first item whose key is of the class of a given one. -/
def stored (less : κ → κ → Bool) (key : α → κ) (items : List α) (k : κ) : Option α :=
  items.find? fun x => alike less k (key x)

/-- The items are in the order of the comparator, one for each class that `pick`
    knows an item of, and that item. What becomes of the item of one class
    leaves all other classes as they are. -/
structure OnePerClass (less : κ → κ → Bool) (key : α → κ) (pick : κ → Option α) (items : List α) : Prop where
  ascending : StrictlyAscending less key items
  stored : ∀ k, stored less key items k = pick k

theorem stored_congr (hless : StrictWeak less) (hjk : alike less j k = true) (items : List α) :
    stored less key items j = stored less key items k := by
  simp only [stored, hless.alike_congr hjk]

namespace StrictlyAscending

theorem sublist (h : StrictlyAscending less key items) (hsub : before.Sublist items) :
    StrictlyAscending less key before :=
  List.Pairwise.sublist hsub h

theorem congr {others : List α} (h : StrictlyAscending less key items) (hkeys : others.map key = items.map key) :
    StrictlyAscending less key others := by
  have hitems : (items.map key).Pairwise fun a b => less a b = true := List.pairwise_map.mpr h
  rw [← hkeys] at hitems
  exact List.pairwise_map.mp hitems

theorem exists_here (h : StrictlyAscending less key between) (hless : StrictWeak less)
    (halike : ∀ x ∈ between, alike less k (key x) = true) : ∃ here : Option α, between = here.toList := by
  match between, h with
  | [], _ => exact ⟨none, rfl⟩
  | [x], _ => exact ⟨some x, rfl⟩
  | x :: y :: rest, h =>
    have hlt : less (key x) (key y) = true := (List.pairwise_cons.mp h).1 y (by simp)
    have hx := (alike_eq_true_iff.mp (halike x (by simp))).2
    have hy := (alike_eq_true_iff.mp (halike y (by simp))).1
    rw [hless.false_trans hy hx] at hlt
    cases hlt

/-- An item may take the place of the one of its class, or the place where that
    would be. -/
theorem put (h : StrictlyAscending less key (before ++ here.toList ++ after)) (hless : StrictWeak less)
    (hparted : Parted less key k before here.toList after) (hx : alike less k (key x) = true) :
    StrictlyAscending less key (before ++ x :: after) := by
  obtain ⟨hfront, hafter, hcross⟩ := List.pairwise_append.mp h
  have hbefore : StrictlyAscending less key before := StrictlyAscending.sublist hfront (List.sublist_append_left ..)
  obtain ⟨hkx, hxk⟩ := alike_eq_true_iff.mp hx
  refine List.pairwise_append.mpr ⟨hbefore, List.pairwise_cons.mpr ⟨?_, hafter⟩, ?_⟩
  · intro b hb
    exact hless.lt_of_le_of_lt hkx (hparted.after b hb)
  · intro a ha b hb
    obtain rfl | hb := List.mem_cons.mp hb
    · exact hless.lt_of_lt_of_le (hparted.before a ha) hxk
    · exact hcross a (List.mem_append_left _ ha) b hb

end StrictlyAscending

namespace Parted

/-- Of the parts of a list by a key, only the class itself has an item stored
    under the key. -/
theorem stored_self (h : Parted less key k before here.toList after) :
    stored less key (before ++ here.toList ++ after) k = here := by
  rw [stored, ← List.head?_filter, h.filter_eq]
  cases here <;> rfl

/-- What is stored once an item has taken the place of its class: the item
    itself under the keys of that class, and what was there under all others. -/
theorem stored_put (hless : StrictWeak less) (h : Parted less key k before here.toList after)
    (hx : alike less k (key x) = true) (j : κ) :
    stored less key (before ++ x :: after) j =
      if alike less j k then some x else stored less key (before ++ here.toList ++ after) j := by
  cases hj : alike less j k with
  | true =>
    have hparted : Parted less key k before (some x).toList after := ⟨h.before, by simpa using hx, h.after⟩
    have hself := hparted.stored_self
    rw [Option.toList_some, List.append_assoc, List.singleton_append] at hself
    rw [stored_congr hless hj, hself, if_pos rfl]
  | false =>
    have hother (y : α) (hy : alike less k (key y) = true) : alike less j (key y) = false := by
      rw [alike_comm, ← hless.alike_congr hy, alike_comm, hj]
    have hclass : here.toList.find? (fun y => alike less j (key y)) = none := by
      rw [List.find?_eq_none]
      intro y hy
      simp [hother y (h.between y hy)]
    simp [stored, List.find?_append, hclass, hother x hx]

end Parted

section Merging

variable (less : κ → κ → Bool) (key : α → κ)

/-- What is held under each key once an item has come. Its class is left with
    what `merge` makes of the item that was held there. -/
def absorb (merge : Option α → α → α) (held : κ → Option α) (x : α) : κ → Option α :=
  fun k => if alike less k (key x) then some (merge (held k) x) else held k

/-- The one that was there stays. -/
def keepFirst (there : Option α) (x : α) : α :=
  there.getD x

/-- The key that was there stays, and gets the new value. -/
def keepKey (there : Option (κ × ν)) (e : κ × ν) : κ × ν :=
  (there.elim e.1 Prod.fst, e.2)

/-- The first key of a class in a list of bindings, with the last value that the
    class is bound to. -/
def firstKeyLastValue (bindings : List (κ × ν)) (k : κ) : Option (κ × ν) :=
  let ofClass := bindings.filter fun e => alike less k e.1
  ofClass.head?.bind fun first => ofClass.getLast?.map fun last => (first.1, last.2)

/-- What a class comes to in a list that is taken in item by item depends on its
    own items alone, in the order in which they come. -/
theorem foldl_absorb (merge : Option α → α → α) (items : List α) (held : κ → Option α) (k : κ) :
    items.foldl (absorb less key merge) held k =
      (items.filter fun x => alike less k (key x)).foldl (fun there x => some (merge there x)) (held k) := by
  induction items generalizing held with
  | nil => rfl
  | cons x rest ih =>
    rw [List.foldl_cons, ih, List.filter_cons, absorb]
    cases halike : alike less k (key x) <;> simp

theorem foldl_keepFirst (items : List α) (there : Option α) :
    items.foldl (fun there x => some (keepFirst there x)) there = there.or items.head? := by
  induction items generalizing there with
  | nil => simp
  | cons x rest ih =>
    rw [List.foldl_cons, ih]
    cases there <;> rfl

/-- Bindings that keep the key of a class leave the first key and the last
    value. -/
theorem foldl_keepKey (bindings : List (κ × ν)) :
    bindings.foldl (fun there e => some (keepKey there e)) none =
      bindings.head?.bind fun first => bindings.getLast?.map fun last => (first.1, last.2) := by
  induction bindings using List.reverseRecOn with
  | nil => rfl
  | append_singleton init e ih =>
    rw [List.foldl_append, ih]
    cases init with
    | nil => rfl
    | cons first rest => simp [keepKey, List.getLast?_cons]

end Merging

/-- What is stored once the item of a class has become what `merge` makes of
    it. -/
theorem Parted.stored_absorb {merge : Option α → α → α} (hless : StrictWeak less)
    (h : Parted less key (key x) before here.toList after) (hx : alike less (key x) (key (merge here x)) = true) :
    stored less key (before ++ merge here x :: after) =
      absorb less key merge (stored less key (before ++ here.toList ++ after)) x := by
  funext j
  rw [h.stored_put hless hx, absorb]
  split
  · next hj => rw [stored_congr hless hj, h.stored_self]
  · rfl

end RedBlack
