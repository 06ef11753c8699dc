import Mathlib.Data.List.Induction
import RedBlack.OrderedMap

namespace RedBlack

namespace AssocMap

variable {κ ν : Type} {before after : List (κ × ν)} {k k' : κ} {old : ν}

theorem find?_before {p : κ × ν → Bool} (hbefore : ∀ e ∈ before, p e = false) :
    (before ++ after).find? p = after.find? p := by
  rw [List.find?_append, List.find?_eq_none.mpr (by simpa using hbefore), Option.none_or]

variable [Ord κ]

/-- Every key is less than all later ones. -/
def Ascending (entries : List (κ × ν)) : Prop :=
  entries.Pairwise fun a b => compare a.1 b.1 = .lt

/-- The key comes after all entries of one part and before all entries of the
    other. Every operation on a list of entries acts at the place between the
    two parts alone. -/
structure Apart (k : κ) (before after : List (κ × ν)) : Prop where
  before : ∀ e ∈ before, compare k e.1 = .gt
  after : ∀ e ∈ after, compare k e.1 = .lt

namespace Apart

theorem get?_vacant (h : Apart k before after) : get? k ⟨before ++ after⟩ = none := by
  have hnone : (before ++ after).find? (fun e => compare k e.1 = .eq) = none := by
    rw [List.find?_eq_none]
    intro e he
    obtain he | he := List.mem_append.mp he
    · simp [h.before e he]
    · simp [h.after e he]
  rw [get?, hnone, Option.map_none]

theorem get?_bound (h : Apart k before after) (heq : compare k k' = .eq) :
    get? k ⟨before ++ (k', old) :: after⟩ = some old := by
  rw [get?, find?_before fun e he => by simp [h.before e he], List.find?_cons_of_pos (by simp [heq])]
  rfl

theorem lowerBound?_vacant (h : Apart k before after) : lowerBound? k ⟨before ++ after⟩ = after.head? := by
  rw [lowerBound?, find?_before fun e he => by simp [h.before e he]]
  cases after with
  | nil => rfl
  | cons b rest => rw [List.find?_cons_of_pos (by simp [h.after b]), List.head?_cons]

theorem lowerBound?_bound (h : Apart k before after) (heq : compare k k' = .eq) :
    lowerBound? k ⟨before ++ (k', old) :: after⟩ = some (k', old) := by
  rw [lowerBound?, find?_before fun e he => by simp [h.before e he], List.find?_cons_of_pos (by simp [heq])]

theorem insertEntry_before (h : Apart k before after) (v : ν) (rest : List (κ × ν)) :
    insertEntry k v (before ++ rest) = before ++ insertEntry k v rest := by
  have hbefore := h.before
  clear h
  induction before with
  | nil => rfl
  | cons a init ih =>
    obtain ⟨hgt, hinit⟩ := List.forall_mem_cons.mp hbefore
    rw [List.cons_append, insertEntry, hgt, List.cons_append, ← ih hinit]

theorem insert_vacant (h : Apart k before after) (v : ν) :
    insert k v ⟨before ++ after⟩ = ⟨before ++ (k, v) :: after⟩ := by
  rw [insert, h.insertEntry_before]
  cases after with
  | nil => rfl
  | cons b rest => rw [insertEntry, h.after b List.mem_cons_self]

theorem insert_bound (h : Apart k before after) (heq : compare k k' = .eq) (v : ν) :
    insert k v ⟨before ++ (k', old) :: after⟩ = ⟨before ++ (k', v) :: after⟩ := by
  rw [insert, h.insertEntry_before, insertEntry, heq]

theorem filter_before (h : Apart k before after) :
    before.filter (fun e => compare k e.1 ≠ .eq) = before := by
  rw [List.filter_eq_self]
  intro e he
  simp [h.before e he]

theorem filter_after (h : Apart k before after) :
    after.filter (fun e => compare k e.1 ≠ .eq) = after := by
  rw [List.filter_eq_self]
  intro e he
  simp [h.after e he]

theorem erase_vacant (h : Apart k before after) : erase k ⟨before ++ after⟩ = ⟨before ++ after⟩ := by
  rw [erase, List.filter_append, h.filter_before, h.filter_after]

theorem erase_bound (h : Apart k before after) (heq : compare k k' = .eq) :
    erase k ⟨before ++ (k', old) :: after⟩ = ⟨before ++ after⟩ := by
  rw [erase, List.filter_append, List.filter_cons_of_neg (by simp [heq]), h.filter_before, h.filter_after]

end Apart

theorem Ascending.replace (h : Ascending (before ++ (k', old) :: after)) (v : ν) :
    Ascending (before ++ (k', v) :: after) := by
  obtain ⟨hb, ha, hcross⟩ := List.pairwise_append.mp h
  refine List.pairwise_append.mpr ⟨hb, List.pairwise_cons.mpr (List.pairwise_cons.mp ha), ?_⟩
  intro x hx y hy
  obtain rfl | hy := List.mem_cons.mp hy
  · exact hcross x hx (k', old) List.mem_cons_self
  · exact hcross x hx y (List.mem_cons_of_mem _ hy)

theorem Ascending.erase (h : Ascending (before ++ (k', old) :: after)) : Ascending (before ++ after) :=
  List.Pairwise.sublist (by simp) h

variable [Std.TransOrd κ]

/-- A key has the value it was bound to last, and no other key lost its own or
    gained one. -/
theorem get?_insert (m : AssocMap κ ν) (k k' : κ) (v : ν) :
    (m.insert k v).get? k' = if compare k' k = .eq then some v else m.get? k' := by
  obtain ⟨entries⟩ := m
  simp only [get?, insert]
  induction entries with
  | nil => by_cases hkey : compare k' k = .eq <;> simp [insertEntry, hkey]
  | cons e rest ih =>
    by_cases hkey : compare k' k = .eq
    · simp only [hkey, if_true] at ih ⊢
      cases hcmp : compare k e.1 with
      | lt => simp [insertEntry, hcmp, hkey]
      | eq => simp [insertEntry, hcmp, Std.TransCmp.eq_trans hkey hcmp]
      | gt => simpa [insertEntry, hcmp, Std.TransCmp.gt_of_eq_of_gt hkey hcmp] using ih
    · simp only [hkey, if_false] at ih ⊢
      cases hcmp : compare k e.1 with
      | lt => simp [insertEntry, hcmp, hkey]
      | eq =>
        have hother : compare k' e.1 ≠ .eq := by rwa [← Std.TransCmp.congr_right hcmp]
        simp [insertEntry, hcmp, hother]
      | gt =>
        by_cases hfirst : compare k' e.1 = .eq
        · simp [insertEntry, hcmp, hfirst]
        · simpa [insertEntry, hcmp, hfirst] using ih

/-- A key whose entry was taken out has no value, and no other key lost its
    own. -/
theorem get?_erase (m : AssocMap κ ν) (k k' : κ) :
    (m.erase k).get? k' = if compare k' k = .eq then none else m.get? k' := by
  obtain ⟨entries⟩ := m
  simp only [get?, erase]
  induction entries with
  | nil => simp
  | cons e rest ih =>
    by_cases hkey : compare k' k = .eq
    · simp only [hkey, if_true] at ih ⊢
      by_cases hfirst : compare k e.1 = .eq
      · simpa [List.filter_cons, hfirst] using ih
      · have hother : compare k' e.1 ≠ .eq := by rwa [Std.TransCmp.congr_left hkey]
        simpa [List.filter_cons, hfirst, hother] using ih
    · simp only [hkey, if_false] at ih ⊢
      by_cases hfirst : compare k e.1 = .eq
      · have hother : compare k' e.1 ≠ .eq := by rwa [← Std.TransCmp.congr_right hfirst]
        simpa [List.filter_cons, hfirst, hother] using ih
      · by_cases hhit : compare k' e.1 = .eq
        · simp [hfirst, hhit]
        · simpa [List.filter_cons, hfirst, hhit] using ih

/-- The two neighbours of a place settle how all entries lie to a key. -/
theorem Ascending.apart (h : Ascending (before ++ after)) (hbefore : ∀ a ∈ before.getLast?, compare k a.1 = .gt)
    (hafter : ∀ b ∈ after.head?, compare k b.1 = .lt) : Apart k before after := by
  obtain ⟨hb, ha, _⟩ := List.pairwise_append.mp h
  constructor
  · intro e he
    cases before using List.reverseRecOn with
    | nil => cases he
    | append_singleton init a =>
      have hgt : compare k a.1 = .gt := hbefore a (by simp)
      obtain he | rfl := List.mem_append.mp he |>.imp_right List.mem_singleton.mp
      · have hlt : compare e.1 a.1 = .lt := (List.pairwise_append.mp hb).2.2 e he a (by simp)
        exact Std.TransCmp.gt_trans hgt (Std.OrientedCmp.gt_of_lt hlt)
      · exact hgt
  · intro e he
    cases after with
    | nil => cases he
    | cons b rest =>
      have hlt : compare k b.1 = .lt := hafter b (by simp)
      obtain rfl | he := List.mem_cons.mp he
      · exact hlt
      · exact Std.TransCmp.lt_trans hlt ((List.pairwise_cons.mp ha).1 e he)

theorem Ascending.apart_of_eq (h : Ascending (before ++ (k', old) :: after)) (heq : compare k k' = .eq) :
    Apart k before after := by
  obtain ⟨_, ha, hcross⟩ := List.pairwise_append.mp h
  constructor
  · intro e he
    have hlt : compare e.1 k' = .lt := hcross e he (k', old) List.mem_cons_self
    exact Std.TransCmp.gt_of_eq_of_gt heq (Std.OrientedCmp.gt_of_lt hlt)
  · intro e he
    exact Std.TransCmp.lt_of_eq_of_lt heq ((List.pairwise_cons.mp ha).1 e he)

theorem Ascending.insert_vacant (h : Ascending (before ++ after)) (hapart : Apart k before after) (v : ν) :
    Ascending (before ++ (k, v) :: after) := by
  obtain ⟨hb, ha, hcross⟩ := List.pairwise_append.mp h
  refine List.pairwise_append.mpr ⟨hb, List.pairwise_cons.mpr ⟨hapart.after, ha⟩, ?_⟩
  intro x hx y hy
  obtain rfl | hy := List.mem_cons.mp hy
  · exact Std.OrientedCmp.lt_of_gt (hapart.before x hx)
  · exact hcross x hx y hy

end AssocMap

end RedBlack
