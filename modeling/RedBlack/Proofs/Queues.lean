import RedBlack.Proofs.Classes

namespace RedBlack

/-- The items queued under each key, the oldest first; keys of one class share
    one queue. An item joins its queue at the end, and the oldest one leaves
    first. This is all that a container of many items for one key does for its
    users, and it knows nothing of trees. -/
def Queues (α κ : Type) : Type :=
  κ → List α

namespace Queues

/-- A call to the queues. -/
inductive Call (α κ : Type) where
  | insert (item : α)
  | extend (items : List α)
  | removeOne (k : κ)
  | removeAll (k : κ)
  | clear

/-- The reply to a call. -/
inductive Reply (β : Type) where
  | done
  | taken (item : Option β)
  | removed (n : Nat)
  deriving DecidableEq, Repr

variable {α β κ : Type}

/-- Whether a call brings items. -/
def Call.Inserts : Call α κ → Prop
  | insert _ | extend _ => True
  | _ => False

/-- No item waits anywhere. -/
def empty : Queues α κ :=
  fun _ => []

section Operations

variable (less : κ → κ → Bool) (key : α → κ)

/-- An item joins the queue of its class. -/
def join (q : Queues α κ) (item : α) : Queues α κ :=
  fun k => if alike less k (key item) then q k ++ [item] else q k

/-- The oldest item of a class leaves. -/
def serve (q : Queues α κ) (k : κ) : Queues α κ :=
  fun j => if alike less j k then (q j).tail else q j

/-- All items of a class leave. -/
def dissolve (q : Queues α κ) (k : κ) : Queues α κ :=
  fun j => if alike less j k then [] else q j

/-- The queues after a call. -/
def after (q : Queues α κ) : Call α κ → Queues α κ
  | .insert item => q.join less key item
  | .extend items => items.foldl (join less key) q
  | .removeOne k => q.serve less k
  | .removeAll k => q.dissolve less k
  | .clear => empty

/-- What the queues reply to a call; of an item that leaves they show `view`. -/
def reply (view : α → β) (q : Queues α κ) : Call α κ → Reply β
  | .insert _ | .extend _ | .clear => .done
  | .removeOne k => .taken ((q k).head?.map view)
  | .removeAll k => .removed (q k).length

/-- The list has the classes in the order of the comparator, and each class as
    its queue has it. A new item comes behind its whole class, so that it stands
    last in it. -/
structure Lists (q : Queues α κ) (items : List α) : Prop where
  sorted : items.Pairwise fun a b => less (key b) (key a) = false
  queues : ∀ k, items.filter (fun x => alike less k (key x)) = q k

end Operations

variable {less : κ → κ → Bool} {key : α → κ} {q : Queues α κ} {items before between after : List α} {item : α}
  {j k : κ}

theorem lists_empty : empty.Lists less key ([] : List α) where
  sorted := List.Pairwise.nil
  queues _ := rfl

namespace Lists

theorem queue_eq (h : q.Lists less key (before ++ between ++ after))
    (hparted : Parted less key k before between after) : q k = between := by
  rw [← h.queues k, hparted.filter_eq]

theorem congr (h : q.Lists less key items) (hless : StrictWeak less) (hjk : alike less j k = true) : q j = q k := by
  rw [← h.queues j, ← h.queues k]
  apply List.filter_congr
  intro x _
  exact hless.alike_congr hjk (key x)

theorem join (h : q.Lists less key (before ++ after)) (hless : StrictWeak less)
    (hbefore : ∀ x ∈ before, less (key item) (key x) = false)
    (hafter : ∀ x ∈ after, less (key item) (key x) = true) :
    (q.join less key item).Lists less key (before ++ item :: after) where
  sorted := by
    obtain ⟨hb, ha, hcross⟩ := List.pairwise_append.mp h.sorted
    have hbehind : ∀ x ∈ after, less (key x) (key item) = false := fun x hx => hless.asymm (hafter x hx)
    refine List.pairwise_append.mpr ⟨hb, List.pairwise_cons.mpr ⟨hbehind, ha⟩, ?_⟩
    intro x hx y hy
    obtain rfl | hy := List.mem_cons.mp hy
    · exact hbefore x hx
    · exact hcross x hx y hy
  queues k := by
    have hqueue := h.queues k
    rw [List.filter_append] at hqueue
    rw [List.filter_append, List.filter_cons, Queues.join, ← hqueue]
    cases hk : alike less k (key item) with
    | false => simp
    | true =>
      have hnone : after.filter (fun x => alike less k (key x)) = [] := by
        rw [List.filter_eq_nil_iff]
        intro x hx
        simp [hless.alike_congr hk, alike_eq_false_of_less (hafter x hx)]
      simp [hnone]

theorem serve (h : q.Lists less key (before ++ item :: after)) (hless : StrictWeak less)
    (hbefore : ∀ x ∈ before, less (key x) k = true) (hitem : alike less k (key item) = true) :
    (q.serve less k).Lists less key (before ++ after) where
  sorted := List.Pairwise.sublist (by simp) h.sorted
  queues j := by
    have hqueue := h.queues j
    rw [List.filter_append, List.filter_cons] at hqueue
    rw [List.filter_append, Queues.serve, ← hqueue]
    cases hj : alike less j k with
    | true =>
      have hnone : before.filter (fun x => alike less j (key x)) = [] := by
        rw [List.filter_eq_nil_iff]
        intro x hx
        simp [hless.alike_congr hj, alike_eq_false_of_greater (hbefore x hx)]
      simp [hnone, hless.alike_trans hj hitem]
    | false =>
      have hother : alike less j (key item) = false := by
        rw [alike_comm, ← hless.alike_congr hitem, alike_comm, hj]
      simp [hother]

theorem serve_nil (h : q.Lists less key items) (hless : StrictWeak less) (hnil : q k = []) : q.serve less k = q := by
  funext j
  rw [Queues.serve]
  split
  · next hj => rw [h.congr hless hj, hnil, List.tail_nil]
  · rfl

theorem dissolve (h : q.Lists less key (before ++ between ++ after)) (hless : StrictWeak less)
    (hparted : Parted less key k before between after) : (q.dissolve less k).Lists less key (before ++ after) where
  sorted := List.Pairwise.sublist (by simp) h.sorted
  queues j := by
    have hqueue := h.queues j
    rw [Queues.dissolve, ← hqueue]
    cases hj : alike less j k with
    | true =>
      have hempty : Parted less key k before [] after := ⟨hparted.before, by simp, hparted.after⟩
      have hclass := hempty.filter_eq
      rw [List.append_nil] at hclass
      simpa [hless.alike_congr hj] using hclass
    | false =>
      have hnone : between.filter (fun x => alike less j (key x)) = [] := by
        rw [List.filter_eq_nil_iff]
        intro x hx
        rw [alike_comm, ← hless.alike_congr (hparted.between x hx), alike_comm, hj]
        exact Bool.false_ne_true
      simp [hnone]

end Lists

end Queues

end RedBlack
