import RedBlack.Proofs.Queues

namespace RedBlack

variable {α κ : Type} {less : κ → κ → Bool} {key : α → κ} {xs ys items before after : List α} {x : α} {k : κ}

section NotAfter

variable (hless : StrictWeak less) (key : α → κ)
include hless

theorem StrictWeak.notAfter_trans (a b c : α) (hab : (!less (key b) (key a)) = true)
    (hbc : (!less (key c) (key b)) = true) : (!less (key c) (key a)) = true := by
  simp only [Bool.not_eq_true'] at hab hbc ⊢
  exact hless.false_trans hab hbc

theorem StrictWeak.notAfter_total (a b : α) : (!less (key b) (key a) || !less (key a) (key b)) = true := by
  cases hba : less (key b) (key a) with
  | false => rfl
  | true => simp [hless.asymm hba]

end NotAfter

/-- The items in the order of their keys; those of one class stay in the order
    that they had. No other list has its items in order and each class as it
    was. -/
def stableSort (less : κ → κ → Bool) (key : α → κ) (xs : List α) : List α :=
  xs.mergeSort fun a b => !less (key b) (key a)

@[simp] theorem length_stableSort (less : κ → κ → Bool) (key : α → κ) (xs : List α) :
    (stableSort less key xs).length = xs.length :=
  List.length_mergeSort xs

/-- No item comes before the first one of an ordered list in which its own class
    stands. -/
theorem not_less_of_class {a b : α} {l m : List α} (hless : StrictWeak less)
    (hb : ∀ c ∈ m, less (key c) (key b) = false)
    (hclass : (a :: l).filter (fun c => alike less (key a) (key c)) =
      (b :: m).filter (fun c => alike less (key a) (key c))) : less (key a) (key b) = false := by
  have hmem : a ∈ (b :: m).filter fun c => alike less (key a) (key c) := by
    rw [← hclass]
    simp [hless.alike_self]
  obtain rfl | hmem := List.mem_cons.mp (List.mem_of_mem_filter hmem)
  · exact hless.irrefl _
  · exact hb a hmem

/-- Ordered lists with the same classes are the same: each of their two first
    items is in the other list as well, so that neither comes before the other,
    and they stand first in one class. -/
theorem eq_of_classes (hless : StrictWeak less) (hxs : xs.Pairwise fun a b => less (key b) (key a) = false)
    (hys : ys.Pairwise fun a b => less (key b) (key a) = false)
    (hclasses : ∀ k, xs.filter (fun x => alike less k (key x)) = ys.filter (fun x => alike less k (key x))) :
    xs = ys := by
  induction xs generalizing ys with
  | nil =>
    cases ys with
    | nil => rfl
    | cons y more =>
      have hclass := hclasses (key y)
      simp [hless.alike_self] at hclass
  | cons x rest ih =>
    cases ys with
    | nil =>
      have hclass := hclasses (key x)
      simp [hless.alike_self] at hclass
    | cons y more =>
      obtain ⟨hx, hrest⟩ := List.pairwise_cons.mp hxs
      obtain ⟨hy, hmore⟩ := List.pairwise_cons.mp hys
      have halike : alike less (key x) (key y) = true :=
        alike_eq_true_iff.mpr ⟨not_less_of_class hless hy (hclasses (key x)),
          not_less_of_class hless hx (hclasses (key y)).symm⟩
      have hfirst := hclasses (key x)
      simp only [List.filter_cons, hless.alike_self, halike, if_true] at hfirst
      obtain rfl : x = y := (List.cons.inj hfirst).1
      rw [ih hrest hmore]
      intro k
      have hclass := hclasses k
      rw [List.filter_cons, List.filter_cons] at hclass
      split at hclass
      · exact (List.cons.inj hclass).2
      · exact hclass

section Sorting

variable (hless : StrictWeak less)
include hless

theorem pairwise_stableSort (key : α → κ) (xs : List α) :
    (stableSort less key xs).Pairwise fun a b => less (key b) (key a) = false := by
  have hsorted : (stableSort less key xs).Pairwise fun a b => (!less (key b) (key a)) = true := by
    exact List.pairwise_mergeSort (hless.notAfter_trans key) (hless.notAfter_total key) xs
  exact hsorted.imp fun h => by simpa using h

theorem filter_stableSort (key : α → κ) (xs : List α) (k : κ) :
    (stableSort less key xs).filter (fun x => alike less k (key x)) = xs.filter fun x => alike less k (key x) := by
  have hclass : (xs.filter fun x => alike less k (key x)).Pairwise fun a b => (!less (key b) (key a)) = true := by
    apply List.pairwise_of_forall_mem_list
    intro a ha b hb
    have hka := (List.mem_filter.mp ha).2
    have hkb := (List.mem_filter.mp hb).2
    rw [hless.alike_congr hka] at hkb
    simp [(alike_eq_true_iff.mp hkb).2]
  have hsub : (xs.filter fun x => alike less k (key x)).Sublist (stableSort less key xs) :=
    List.sublist_mergeSort (hless.notAfter_trans key) (hless.notAfter_total key) hclass List.filter_sublist
  have hkept := hsub.filter fun x => alike less k (key x)
  rw [List.filter_filter] at hkept
  simp only [Bool.and_self] at hkept
  have hlength := ((List.mergeSort_perm xs fun a b => !less (key b) (key a)).filter fun x =>
    alike less k (key x)).length_eq
  exact (hkept.eq_of_length hlength.symm).symm

end Sorting

namespace Queues

/-- The queues of the items of a list, which came in its order one by one. -/
def ofList (less : κ → κ → Bool) (key : α → κ) (xs : List α) : Queues α κ :=
  fun k => xs.filter fun x => alike less k (key x)

theorem join_ofList (less : κ → κ → Bool) (key : α → κ) (xs : List α) (x : α) :
    (ofList less key xs).join less key x = ofList less key (xs ++ [x]) := by
  funext k
  rw [join, ofList, ofList, List.filter_append, List.filter_singleton]
  cases alike less k (key x) with
  | true => rfl
  | false => rw [if_neg Bool.false_ne_true, Bool.cond_false, List.append_nil]

/-- What the queues of a list are listed as is the list sorted stably, and
    nothing else. -/
theorem lists_ofList_iff (hless : StrictWeak less) :
    (ofList less key xs).Lists less key items ↔ items = stableSort less key xs := by
  have hsorted : (ofList less key xs).Lists less key (stableSort less key xs) :=
    ⟨pairwise_stableSort hless key xs, filter_stableSort hless key xs⟩
  constructor
  · intro h
    apply eq_of_classes hless h.sorted hsorted.sorted
    intro k
    rw [h.queues k, hsorted.queues k]
  · rintro rfl
    exact hsorted

theorem lists_ofList_self (h : xs.Pairwise fun a b => less (key b) (key a) = false) :
    (ofList less key xs).Lists less key xs :=
  ⟨h, fun _ => rfl⟩

end Queues

end RedBlack
