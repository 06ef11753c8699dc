import RedBlack.Proofs.Queues
import RedBlack.Proofs.Tree.Replica
import RedBlack.Proofs.Tree.Ranges
import RedBlack.Proofs.Tree.Safety

namespace RedBlack

/-- An entry between neighbours of which only the second one comes after it
    joins the queue of its class. -/
theorem Queues.Lists.join_between {α κ : Type} {less : κ → κ → Bool} {key : α → κ} {q : Queues α κ}
    {before after : List (Slot × α)} {item : α} (h : q.Lists less key ((before ++ after).map Prod.snd))
    (hless : StrictWeak less) (slot : Slot) (hbefore : ∀ a ∈ before.getLast?, less (key item) (key a.2) = false)
    (hafter : ∀ b ∈ after.head?, less (key item) (key b.2) = true) :
    (q.join less key item).Lists less key ((before ++ (slot, item) :: after).map Prod.snd) := by
  have hsorted : Sorted less key (before ++ after) := List.pairwise_map.mp h.sorted
  obtain ⟨hb, ha, _⟩ := List.pairwise_append.mp hsorted
  rw [List.map_append] at h
  rw [List.map_append, List.map_cons]
  apply h.join hless
  · intro x hx
    obtain ⟨e, he, rfl⟩ := List.mem_map.mp hx
    obtain ⟨a, hlast⟩ := List.getLast?_isSome.mpr (List.ne_nil_of_mem he) |> Option.isSome_iff_exists.mp
    exact hless.false_trans (Sorted.le_of_getLast? hless hb hlast he) (hbefore a hlast)
  · intro x hx
    obtain ⟨e, he, rfl⟩ := List.mem_map.mp hx
    exact Sorted.less_all hless ha hafter he

namespace Tree

open RedBlack.Action

variable {α β κ : Type} {key : α → κ} {t : Tree key} {q : Queues α κ} {entries : List (Slot × α)} {k : κ}

/-- The tree lists the queues, one for each class of keys, as equal items go
    behind each other; and its store holds nothing else. -/
def Queued (t : Tree key) (q : Queues α κ) : Prop :=
  ∃ entries, t.Represents entries .idle ∧ q.Lists t.less key (entries.map Prod.snd)

/-- Adds an item behind those with an equivalent key. -/
def enqueue (item : α) : Op key Unit := do
  let _ ← demand (← Tree.insertEqual item)

/-- Takes the first item with an equivalent key out, and shows it. -/
def dequeue (view : α → β) (k : κ) : Op key (Option β) := do
  let p ← .ask fun t => t.find k
  if p.isEnd then return none
  else return some (view (← Tree.remove p))

theorem sorted_of_lists (h : q.Lists t.less key (entries.map Prod.snd)) : Sorted t.less key entries :=
  List.pairwise_map.mp h.sorted

/-- A tree whose store holds nothing else and has no room has as many items as
    there are slots. -/
theorem Represents.size_of_full (h : t.Represents entries .idle) (hroom : ¬ t.store.HasRoom) :
    t.size = Handle.maxSlots := by
  have hle := h.store.length_le
  have hnot : ¬ entries.length < Handle.maxSlots := by
    intro hlt
    exact hroom (h.store.hasRoom rfl (fun _ => rfl) hlt)
  rw [h.size]
  omega

/-- An item inserted among equivalent ones joins the queue of its class, unless
    there is no slot for it. -/
theorem Represents.insertEqual_joins {o : Outside α} (h : t.Represents entries o) (hless : StrictWeak t.less)
    (hlists : q.Lists t.less key (entries.map Prod.snd)) (item : α) :
    (Tree.insertEqual item).Yields t fun answer u => u.Continues t ∧
      ((∃ p, answer = .ok p) ∧ (∃ rest, u.Represents rest o ∧
          (q.join t.less key item).Lists t.less key (rest.map Prod.snd)) ∨
        answer = .error .noSlot ∧ ¬ u.store.HasRoom ∧ u.Represents entries o) := by
  refine (h.insertEqual_upper item).mono ?_
  intro answer u hinsertion
  cases hinsertion with
  | @inserted before after slot _ hsplit hbefore hafter hu hdone =>
    subst hsplit
    exact ⟨hu, .inl ⟨⟨_, rfl⟩, _, hdone, hlists.join_between hless slot hbefore hafter⟩⟩
  | refused hroom hu hdone => exact ⟨hu, .inr ⟨rfl, hroom, hdone⟩⟩

namespace Queued

/-- The entries parted by a key, with what the searches say of it: the class is
    the queue. -/
theorem exists_bounds (h : t.Queued q) (hless : StrictWeak t.less) (k : κ) :
    ∃ lower middle upper : List (Slot × α), t.Represents (lower ++ middle ++ upper) .idle ∧
      q.Lists t.less key ((lower ++ middle ++ upper).map Prod.snd) ∧ t.Bounds k lower middle upper ∧
      q k = middle.map Prod.snd := by
  obtain ⟨entries, hrep, hlists⟩ := h
  obtain ⟨lower, middle, upper, rfl, hbounds⟩ := hrep.bounds hless (sorted_of_lists hlists) k
  refine ⟨lower, middle, upper, hrep, hlists, hbounds, ?_⟩
  rw [List.map_append, List.map_append] at hlists
  exact hlists.queue_eq (hbounds.parted.map)

section Answers

variable (h : t.Queued q) (hless : StrictWeak t.less) (k : κ)
include h hless

theorem contains : (t.contains k).answer = .ok !(q k).isEmpty := by
  obtain ⟨lower, middle, upper, hrep, hlists, hbounds, hqueue⟩ := h.exists_bounds hless k
  rw [Tree.contains, Query.answer_bind, hbounds.find, ok_bind, hqueue]
  cases middle with
  | nil => rfl
  | cons e rest => rfl

theorem count : (t.count k).answer = .ok (q k).length := by
  obtain ⟨entries, hrep, hlists⟩ := h
  have hsorted := sorted_of_lists hlists
  obtain ⟨lower, middle, upper, rfl, hcount, hlower, hupper⟩ := hrep.count hless k
  rw [List.map_append, List.map_append] at hlists
  rw [hcount, hlists.queue_eq (hlower.parted hless hsorted hupper).map, List.length_map]

theorem walkEqual (view : α → β) : ∃ w, (t.walkEqual k).answer = .ok w ∧ ∀ script,
    ∃ w', (w.map view).follow script = .ok (takeEnds script ((q k).map view), w') := by
  obtain ⟨entries, hrep, hlists⟩ := h
  have hsorted := sorted_of_lists hlists
  obtain ⟨w, lower, middle, upper, rfl, hwalk, hcovers, hview, hlower, hupper⟩ := hrep.walkEqual hless k
  rw [List.map_append, List.map_append] at hlists
  refine ⟨w, hwalk, ?_⟩
  intro script
  obtain ⟨w', hfollow⟩ := (hcovers.map view).follow_eq script
  refine ⟨w', ?_⟩
  rw [hfollow, hlists.queue_eq (hlower.parted hless hsorted hupper).map, List.map_map, Walk.map, hview]
  rfl

end Answers

/-- What the queues say of all items: a list of them answers the walks and the
    searches for bounds. -/
structure Listing (t : Tree key) (items : List α) : Prop where
  size : t.size = items.length
  read : t.items = .ok items
  walk : ∀ script, ∃ w', t.walk.follow script = .ok (takeEnds script items, w')
  lowerBound : ∀ k, ∃ p, (t.lowerBound k).answer = .ok p ∧
    t.get p = .ok (items.find? fun x => !t.less (key x) k)
  upperBound : ∀ k, ∃ p, (t.upperBound k).answer = .ok p ∧
    t.get p = .ok (items.find? fun x => t.less k (key x))

theorem listing (h : t.Queued q) (hless : StrictWeak t.less) : ∃ items, q.Lists t.less key items ∧ Listing t items := by
  obtain ⟨entries, hrep, hlists⟩ := id h
  refine ⟨entries.map Prod.snd, hlists, ?_, hrep.items, ?_, ?_, ?_⟩
  · rw [hrep.size, List.length_map]
  · exact fun script => hrep.walk.follow_eq script
  · intro k
    obtain ⟨lower, middle, upper, rfl, hbounds⟩ := hrep.bounds hless (sorted_of_lists hlists) k
    refine ⟨_, hbounds.lowerBound, ?_⟩
    rw [List.map_append, List.map_append, hbounds.parted.map.find?_not_less hless, ← List.map_append, List.head?_map]
    rw [List.append_assoc] at hrep
    exact hrep.get
  · intro k
    obtain ⟨lower, middle, upper, rfl, hbounds⟩ := hrep.bounds hless (sorted_of_lists hlists) k
    refine ⟨_, hbounds.upperBound, ?_⟩
    rw [hrep.get, List.map_append, List.map_append, hbounds.parted.map.find?_less hless, List.head?_map]

section Operations

variable (h : t.Queued q) (hless : StrictWeak t.less)
include h

theorem clear : (Tree.clear : Op key Unit).Yields t fun _ u => u.Continues t ∧ u.Queued Queues.empty := by
  obtain ⟨entries, hrep, _⟩ := h
  refine hrep.clear.mono ?_
  rintro _ u ⟨hu, hdone⟩
  exact ⟨hu, [], hdone, Queues.lists_empty⟩

theorem clone (tag : UInt64) : ∃ copy, t.clone (.arena .empty) tag = .ok copy ∧ copy.less = t.less ∧ copy.Queued q := by
  obtain ⟨entries, hrep, hlists⟩ := h
  obtain ⟨copy, new, hrun, hcopy, hsame, _, _, hitems⟩ := hrep.clone tag
  refine ⟨copy, hrun, hsame, new, hcopy, ?_⟩
  rw [hitems, hsame]
  exact hlists

include hless

theorem enqueue (item : α) : (Tree.enqueue item : Op key Unit).wp
    (fun _ u => u.Continues t ∧ u.Queued (q.join t.less key item))
    (fun fault u => fault = .allocationFailed ∧ u.size = Handle.maxSlots ∧ u.Continues t ∧ u.Queued q) t := by
  obtain ⟨entries, hrep, hlists⟩ := h
  rw [Tree.enqueue, wp_bind]
  refine (hrep.insertEqual_joins hless hlists item).mono ?_
  rintro _ u ⟨hu, ⟨⟨p, rfl⟩, rest, hdone, hjoined⟩ | ⟨rfl, hroom, hdone⟩⟩
  · rw [wp_bind, wp_demand]
    simp only [wp_pure]
    refine ⟨hu, rest, hdone, ?_⟩
    rw [hu.less]
    exact hjoined
  · rw [wp_bind, wp_demand]
    refine ⟨rfl, hdone.size_of_full hroom, hu, entries, hdone, ?_⟩
    rw [hu.less]
    exact hlists

/-- The item that is found under a key and removed is the oldest one of its
    class. -/
theorem dequeue (view : α → β) (k : κ) : (Tree.dequeue view k : Op key (Option β)).Yields t
    fun answer u => answer = (q k).head?.map view ∧ u.Continues t ∧ u.Queued (q.serve t.less k) := by
  obtain ⟨lower, middle, upper, hrep, hlists, hbounds, hqueue⟩ := h.exists_bounds hless k
  rw [Tree.dequeue, Yields, wp_bind, wp_ask_ok (s := t) hbounds.find]
  cases middle with
  | nil =>
    refine ⟨by rw [hqueue]; rfl, .refl t, _, hrep, ?_⟩
    rw [hlists.serve_nil hless (by rw [hqueue]; rfl)]
    exact hlists
  | cons e rest =>
    have hsplit : lower ++ e :: rest ++ upper = lower ++ e :: (rest ++ upper) := by simp
    rw [hsplit] at hrep hlists
    simp only [List.head?_cons, Option.map_some, Position.isEnd, position, Option.isNone_some, Bool.false_eq_true,
      if_false, wp_bind]
    refine (hrep.remove rfl rfl).mono ?_
    rintro _ u ⟨hitem, hu, hdone⟩
    rw [wp_pure]
    refine ⟨by rw [hqueue, hitem]; rfl, hu, lower ++ (rest ++ upper), hdone, ?_⟩
    rw [List.map_append, List.map_cons] at hlists
    rw [hu.less, List.map_append]
    exact hlists.serve hless (List.forall_mem_map.mpr hbounds.parted.before) (hbounds.parted.between e (by simp))

theorem eraseKey (k : κ) : (Tree.eraseKey k : Op key Nat).Yields t
    fun n u => n = (q k).length ∧ u.Continues t ∧ u.Queued (q.dissolve t.less k) := by
  obtain ⟨entries, hrep, hlists⟩ := h
  have hsorted := sorted_of_lists hlists
  refine (hrep.eraseKey hless k).mono ?_
  rintro _ u ⟨lower, middle, upper, rfl, rfl, hlower, hupper, hu, hdone⟩
  have hparted := (hlower.parted hless hsorted hupper).map (f := Prod.snd)
  rw [List.map_append, List.map_append] at hlists
  refine ⟨by rw [hlists.queue_eq hparted, List.length_map], hu, lower ++ upper, hdone, ?_⟩
  rw [hu.less, List.map_append]
  exact hlists.dissolve hless hparted

end Operations

end Queued

end Tree

end RedBlack
