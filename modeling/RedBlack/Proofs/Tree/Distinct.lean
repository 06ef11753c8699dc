import RedBlack.Proofs.Ascending
import RedBlack.Proofs.Tree.Hints
import RedBlack.Proofs.Tree.Linked
import RedBlack.Proofs.Tree.Queued

namespace RedBlack

namespace Tree

open RedBlack.Action

variable {α β κ : Type} {key : α → κ} {t u : Tree key} {entries rest lower upper : List (Slot × α)}
  {here : Option (Slot × α)} {e : Slot × α} {o : Outside α} {item : α} {k : κ}

/-- Where one item gave way to another and no link changed, the nodes show the
    new item and are the same else. -/
theorem SameLinks.nodes {slot : Slot} {old new : α} (h : t.SameLinks u)
    (ht : t.Represents (lower ++ (slot, old) :: upper) o) (hu : u.Represents (lower ++ (slot, new) :: upper) o) :
    ∃ (before : List (Shape.Links × α)) (links : Shape.Links) (after : List (Shape.Links × α)),
      t.nodes = .ok (before ++ (links, old) :: after) ∧ u.nodes = .ok (before ++ (links, new) :: after) := by
  have htable : u.table = t.table := by rw [table, table, h.shape]
  have hslots : t.table.map Shape.Links.slot = lower.map Prod.fst ++ slot :: upper.map Prod.fst := by
    rw [table, Shape.map_slot_links, ht.slots, List.map_append, List.map_cons]
  obtain ⟨first, rest, hfirst, hlower, hrest⟩ := List.map_eq_append_iff.mp hslots
  obtain ⟨links, last, rfl, _, _⟩ := List.map_eq_cons_iff.mp hrest
  have hlength : first.length = (lower.map Prod.snd).length := by
    rw [List.length_map, ← List.length_map Shape.Links.slot, hlower, List.length_map]
  have hzip (item : α) : (first ++ links :: last).zip ((lower ++ (slot, item) :: upper).map Prod.snd) =
      first.zip (lower.map Prod.snd) ++ (links, item) :: last.zip (upper.map Prod.snd) := by
    rw [List.map_append, List.map_cons, List.zip_append hlength, List.zip_cons_cons]
  refine ⟨first.zip (lower.map Prod.snd), links, last.zip (upper.map Prod.snd), ?_, ?_⟩
  · rw [ht.nodes, hfirst, hzip]
  · rw [hu.nodes, htable, hfirst, hzip]

/-- A tree with the given entries, no two of which have keys alike. A key finds
    in it the item of its class or the one place where that would go. -/
structure Distinct (t : Tree key) (entries : List (Slot × α)) (o : Outside α) : Prop where
  represents : t.Represents entries o
  ascending : StrictlyAscending t.less (fun e : Slot × α => key e.2) entries

theorem distinct_empty {less : κ → κ → Bool} {tag : UInt64} :
    (empty key less (.arena .empty) tag).Distinct [] .idle where
  represents := represents_empty Store.holds_empty
  ascending := List.Pairwise.nil

/-- Adds an item unless there is one with a key alike; says whether it did. -/
def add (item : α) : Op key Bool := do
  return (← demand (← Tree.insertUnique item)).2

namespace Distinct

theorem sorted (h : t.Distinct entries o) (hless : StrictWeak t.less) : Sorted t.less key entries :=
  h.ascending.imp hless.asymm

/-- A later state of a tree has no two items with keys alike if it only lost
    some. -/
theorem of_sublist (h : t.Distinct entries o) (hu : u.Continues t) (hrep : u.Represents rest o)
    (hsub : rest.Sublist entries) : u.Distinct rest o := by
  refine ⟨hrep, ?_⟩
  rw [hu.less]
  exact h.ascending.sublist hsub

/-- A key parts the entries into those before its class, the one of its class,
    if there is one, and those after it. -/
theorem exists_bounds (h : t.Distinct entries o) (hless : StrictWeak t.less) (k : κ) :
    ∃ (lower : List (Slot × α)) (here : Option (Slot × α)) (upper : List (Slot × α)),
      entries = lower ++ here.toList ++ upper ∧ t.Bounds k lower here.toList upper := by
  obtain ⟨lower, middle, upper, rfl, hbounds⟩ := h.represents.bounds hless (h.sorted hless) k
  have hmiddle : StrictlyAscending t.less (fun e : Slot × α => key e.2) middle := h.ascending.sublist (by simp)
  obtain ⟨here, rfl⟩ := hmiddle.exists_here hless hbounds.parted.between
  exact ⟨lower, here, upper, rfl, hbounds⟩

theorem get_find (h : t.Distinct (lower ++ here.toList ++ upper) o) (hbounds : t.Bounds k lower here.toList upper) :
    ∃ p, (t.find k).answer = .ok p ∧ t.get p = .ok (here.map Prod.snd) := by
  refine ⟨_, hbounds.find, ?_⟩
  cases here with
  | none => simp [Tree.get, own_position]
  | some e =>
    have hrep := h.represents
    rw [Option.toList_some, List.append_assoc, List.singleton_append] at hrep
    exact hrep.get

section Insertion

variable {search : Tree key → κ → Query κ Vacancy}

/-- With an item of the class there, an insertion under unique keys points at it
    and does nothing. -/
theorem insertUniqueBy_there (h : t.Distinct (lower ++ e :: upper) o) (hless : StrictWeak t.less)
    (hparted : Parted t.less (fun e : Slot × α => key e.2) (key item) lower [e] upper)
    (hsearch : FindsUnique (lower ++ e :: upper) search) :
    (insertUniqueBy search item).Yields t fun answer u => answer = .ok (t.position (some e.1), false) ∧ u = t := by
  obtain ⟨v, hv, hspot⟩ := hsearch h.represents (key item)
  rw [insertUniqueBy, Yields, wp_bind, wp_ask_ok (s := t) hv]
  obtain ⟨habove, hbelow⟩ := alike_eq_true_iff.mp (hparted.between e (by simp))
  cases hspot with
  | vacant hvacant =>
    obtain ⟨p, before, after, hsplit, _, _, hlow, hhigh⟩ := hvacant.parts hless (h.sorted hless)
    have hmem : e ∈ before ++ after := by simp [← hsplit]
    obtain hmem | hmem := List.mem_append.mp hmem
    · rw [hlow e hmem] at hbelow
      cases hbelow
    · rw [hhigh e hmem] at habove
      cases habove
  | @occupied slot other hmem hnotBelow hnotAbove =>
    rw [List.mem_append, List.mem_cons] at hmem
    obtain hmem | rfl | hmem := hmem
    · have hlow : t.less (key other) (key item) = true := hparted.before _ hmem
      rw [hlow] at hnotBelow
      cases hnotBelow
    · exact ⟨rfl, rfl⟩
    · have hhigh : t.less (key item) (key other) = true := hparted.after _ hmem
      rw [hhigh] at hnotAbove
      cases hnotAbove

/-- An item that is put between two strictly apart from it is the only one of
    its class. -/
theorem insertion {answer : Except AllocError Position} (h : t.Distinct entries o) (hless : StrictWeak t.less)
    (hinsertion : t.Insertion entries o item (t.less · (key item) = true) (t.less (key item) · = true) answer u) :
    u.Continues t ∧
      ((∃ before slot after, entries = before ++ after ∧
        Parted t.less (fun e : Slot × α => key e.2) (key item) before [] after ∧
        answer = .ok (t.position (some slot)) ∧ u.Distinct (before ++ (slot, item) :: after) o) ∨
      (answer = .error .noSlot ∧ ¬ u.store.HasRoom ∧ u.Distinct entries o)) := by
  cases hinsertion with
  | @inserted before after slot _ hsplit hbelow habove hu hrep =>
    have hascending : StrictlyAscending t.less (fun e : Slot × α => key e.2)
        (before ++ (none : Option (Slot × α)).toList ++ after) := by simpa [← hsplit] using h.ascending
    have hsorted := h.sorted hless
    rw [hsplit] at hsorted
    obtain ⟨hb, ha, _⟩ := List.pairwise_append.mp hsorted
    have hparted : Parted t.less (fun e : Slot × α => key e.2) (key item) before [] after :=
      ⟨fun _ he => Sorted.all_less hless hb hbelow he, by simp, fun _ he => Sorted.less_all hless ha habove he⟩
    refine ⟨hu, .inl ⟨before, slot, after, hsplit, hparted, rfl, hrep, ?_⟩⟩
    rw [hu.less]
    exact hascending.put hless hparted (hless.alike_self _)
  | refused hroom hu hrep => exact ⟨hu, .inr ⟨rfl, hroom, h.of_sublist hu hrep (List.Sublist.refl _)⟩⟩

/-- With no item of the class there, an insertion under unique keys inserts,
    unless it gets no slot. -/
theorem insertUniqueBy_vacant (h : t.Distinct (lower ++ upper) o) (hless : StrictWeak t.less)
    (hparted : Parted t.less (fun e : Slot × α => key e.2) (key item) lower [] upper)
    (hsearch : FindsUnique (lower ++ upper) search) :
    (insertUniqueBy search item).Yields t fun answer u => u.Continues t ∧
      ((∃ slot, answer = .ok (t.position (some slot), true) ∧ u.Distinct (lower ++ (slot, item) :: upper) o) ∨
        (answer = .error .noSlot ∧ ¬ u.store.HasRoom ∧ u.Distinct (lower ++ upper) o)) := by
  refine (h.represents.insertUniqueBy item hsearch).mono ?_
  intro answer u hinsertion
  cases hinsertion with
  | vacant hinsertion =>
    obtain ⟨hu, ⟨before, slot, after, hsplit, hparted', rfl, hdone⟩ | ⟨rfl, hroom, hdone⟩⟩ :=
      h.insertion hless hinsertion
    · obtain ⟨rfl, rfl⟩ :=
        Sorted.cut_unique hless hsplit.symm hparted.before hparted'.after hparted'.before hparted.after
      exact ⟨hu, .inl ⟨slot, rfl, hdone⟩⟩
    · exact ⟨hu, .inr ⟨rfl, hroom, hdone⟩⟩
  | @occupied slot other u hmem hnotBelow hnotAbove hu hrep =>
    obtain hmem | hmem := List.mem_append.mp hmem
    · have hlow : t.less (key other) (key item) = true := hparted.before _ hmem
      rw [hlow] at hnotBelow
      cases hnotBelow
    · have hhigh : t.less (key item) (key other) = true := hparted.after _ hmem
      rw [hhigh] at hnotAbove
      cases hnotAbove

theorem add_there (h : t.Distinct (lower ++ e :: upper) o) (hless : StrictWeak t.less)
    (hparted : Parted t.less (fun e : Slot × α => key e.2) (key item) lower [e] upper) :
    (Tree.add item : Op key Bool).Yields t fun added u => added = false ∧ u = t := by
  rw [Tree.add, Yields, wp_bind]
  refine (h.insertUniqueBy_there hless hparted (findsUnique_plain _)).mono ?_
  rintro _ u ⟨rfl, rfl⟩
  exact ⟨rfl, rfl⟩

theorem add_vacant (h : t.Distinct (lower ++ upper) o) (hless : StrictWeak t.less)
    (hparted : Parted t.less (fun e : Slot × α => key e.2) (key item) lower [] upper) :
    (Tree.add item : Op key Bool).wp
      (fun added u => added = true ∧ u.Continues t ∧ ∃ slot, u.Distinct (lower ++ (slot, item) :: upper) o)
      (fun fault u => fault = .allocationFailed ∧ ¬ u.store.HasRoom ∧ u.Continues t ∧ u.Distinct (lower ++ upper) o)
      t := by
  rw [Tree.add, wp_bind]
  refine (h.insertUniqueBy_vacant hless hparted (findsUnique_plain _)).mono ?_
  rintro _ u ⟨hu, ⟨slot, rfl, hdone⟩ | ⟨rfl, hroom, hdone⟩⟩
  · exact ⟨rfl, hu, slot, hdone⟩
  · exact ⟨rfl, hroom, hu, hdone⟩

end Insertion

/-- What is found under a key and removed is the item of its class. -/
theorem dequeue (h : t.Distinct (lower ++ here.toList ++ upper) o) (hbounds : t.Bounds k lower here.toList upper)
    (view : α → β) :
    (Tree.dequeue view k : Op key (Option β)).Yields t fun answer u =>
      answer = here.map (fun e => view e.2) ∧ u.Continues t ∧ u.Distinct (lower ++ upper) o := by
  rw [Tree.dequeue, Yields, wp_bind, wp_ask_ok (s := t) hbounds.find]
  cases here with
  | none =>
    rw [Option.toList_none, List.append_nil] at h
    exact ⟨rfl, .refl t, h⟩
  | some e =>
    have hrep := h.represents
    rw [Option.toList_some, List.append_assoc, List.singleton_append] at hrep
    simp only [Option.toList_some, List.head?_cons, Option.map_some, Position.isEnd, position, Option.isNone_some,
      Bool.false_eq_true, if_false, wp_bind]
    refine (hrep.remove rfl rfl).mono ?_
    rintro _ u ⟨rfl, hu, hdone⟩
    exact ⟨rfl, hu, h.of_sublist hu hdone (by simp)⟩

end Distinct

section Holding

variable {less : κ → κ → Bool} {held : κ → Option α}

/-- The tree has one item for each class of keys under the comparator, the one
    that is held there, and its store holds nothing else. -/
def Holding (less : κ → κ → Bool) (held : κ → Option α) (t : Tree key) : Prop :=
  t.less = less ∧ ∃ entries, t.Distinct entries .idle ∧ held = stored less key (entries.map Prod.snd)

/-- An insertion that got no slot: none was left, there is no item of the class,
    and the tree holds what it held. -/
def Unabsorbed (less : κ → κ → Bool) (held : κ → Option α) (item : α) (fault : Fault) (t : Tree key) : Prop :=
  fault = .allocationFailed ∧ t.size = Handle.maxSlots ∧ held (key item) = none ∧ t.Holding less held

theorem holding_empty {tag : UInt64} : (empty key less (.arena .empty) tag).Holding less fun _ => none :=
  ⟨rfl, [], distinct_empty, rfl⟩

theorem Holding.exists_items (h : t.Holding less held) :
    ∃ left, t.items = .ok left ∧ OnePerClass less key held left ∧ t.size = left.length := by
  obtain ⟨rfl, entries, hdistinct, rfl⟩ := h
  refine ⟨_, hdistinct.represents.items, ⟨List.pairwise_map.mpr hdistinct.ascending, fun _ => rfl⟩, ?_⟩
  rw [hdistinct.represents.size, List.length_map]

/-- The bounds of a key part the items as they part the entries. -/
theorem Bounds.parted_items (h : t.Bounds k lower here.toList upper) :
    Parted t.less key k (lower.map Prod.snd) (here.map Prod.snd).toList (upper.map Prod.snd) := by
  rw [Option.toList_map]
  exact h.parted.map

/-- A tree where one item is what `merge` makes of that of its class and a new
    one holds what is left of both. -/
theorem Distinct.holding_put {merge : Option α → α → α} {slot : Slot} (hless : StrictWeak t.less)
    (hbounds : t.Bounds (key item) lower here.toList upper)
    (halike : alike t.less (key item) (key (merge (here.map Prod.snd) item)) = true) (hu : u.Continues t)
    (h : u.Distinct (lower ++ (slot, merge (here.map Prod.snd) item) :: upper) .idle) :
    u.Holding t.less
      (absorb t.less key merge (stored t.less key ((lower ++ here.toList ++ upper).map Prod.snd)) item) := by
  refine ⟨hu.less, _, h, ?_⟩
  rw [List.map_append, List.map_append, ← Option.toList_map, ← hbounds.parted_items.stored_absorb hless halike,
    List.map_append, List.map_cons]

/-- Without an item of its class, nothing is held under a key. -/
theorem Distinct.unabsorbed {fault : Fault} (hbounds : t.Bounds (key item) lower [] upper)
    (hfault : fault = .allocationFailed) (hroom : ¬ u.store.HasRoom) (hu : u.Continues t)
    (h : u.Distinct (lower ++ upper) .idle) :
    u.Unabsorbed t.less (stored t.less key ((lower ++ upper).map Prod.snd)) item fault := by
  refine ⟨hfault, h.represents.size_of_full hroom, ?_, hu.less, _, h, rfl⟩
  have hvacant : t.Bounds (key item) lower (none : Option (Slot × α)).toList upper := hbounds
  have hself := hvacant.parted_items.stored_self
  rw [Option.map_none, Option.toList_none, List.append_nil] at hself
  rw [List.map_append, hself]

/-- An item that is added is held if it is the first one of its class. -/
theorem Holding.add (h : t.Holding less held) (hless : StrictWeak less) (item : α) :
    (Tree.add item : Op key Bool).wp (fun _ u => u.Holding less (absorb less key keepFirst held item))
      (fun fault u => u.Unabsorbed less held item fault) t := by
  obtain ⟨rfl, entries, hdistinct, rfl⟩ := h
  obtain ⟨lower, here, upper, rfl, hbounds⟩ := hdistinct.exists_bounds hless (key item)
  cases here with
  | none =>
    have hvacant : t.Distinct (lower ++ upper) .idle := by simpa using hdistinct
    refine wp_mono (hvacant.add_vacant hless hbounds.parted) ?_ ?_
    · rintro _ u ⟨_, hu, slot, hdone⟩
      exact hdone.holding_put hless hbounds (hless.alike_self _) hu
    · rintro fault u ⟨hfault, hroom, hu, hdone⟩
      rw [Option.toList_none, List.append_nil]
      exact hdone.unabsorbed hbounds hfault hroom hu
  | some e =>
    have hthere : t.Distinct (lower ++ e :: upper) .idle := by simpa using hdistinct
    refine (hthere.add_there hless hbounds.parted).mono ?_
    rintro _ u ⟨_, rfl⟩
    exact hthere.holding_put hless hbounds (hbounds.parted.between e (by simp)) (.refl u)

/-- Items that are taken in one after the other leave what all of them come to.
    If one gets no slot, the ones before it have been taken in, and it and the
    ones behind it have not. -/
theorem wp_absorbs {σ : Type} {tree : σ → Tree key} {insert : α → Action σ κ Unit} {merge : Option α → α → α} {s : σ}
    (hinsert : ∀ x s held, (tree s).Holding less held →
      (insert x).wp (fun _ n => (tree n).Holding less (absorb less key merge held x))
        (fun fault n => (tree n).Unabsorbed less held x fault) s)
    (items : List α) (h : (tree s).Holding less held) :
    (items.forM insert).wp (fun _ n => (tree n).Holding less (items.foldl (absorb less key merge) held))
      (fun fault n => ∃ done x rest, items = done ++ x :: rest ∧
        (tree n).Unabsorbed less (done.foldl (absorb less key merge) held) x fault) s := by
  induction items generalizing s held with
  | nil => exact h
  | cons x rest ih =>
    change (insert x >>= fun _ => rest.forM insert).wp _ _ s
    rw [wp_bind]
    refine wp_mono (hinsert x s held h) ?_ ?_
    · intro _ n hn
      refine wp_mono (ih hn) (fun _ _ hdone => hdone) ?_
      rintro fault u ⟨done, y, more, rfl, hstopped⟩
      exact ⟨x :: done, y, more, rfl, hstopped⟩
    · exact fun fault n hstopped => ⟨[], x, rest, rfl, hstopped⟩

end Holding

section Unique

variable {less : κ → κ → Bool}

/-- The tree has one item at most for each class of keys under the comparator,
    and its store holds nothing else. -/
def Unique (less : κ → κ → Bool) (t : Tree key) : Prop :=
  t.less = less ∧ ∃ entries, t.Distinct entries .idle

theorem unique_empty {tag : UInt64} : (empty key less (.arena .empty) tag).Unique less :=
  ⟨rfl, [], distinct_empty⟩

theorem Distinct.unique (h : u.Distinct entries .idle) (hu : u.Continues t) (hless : t.less = less) : u.Unique less :=
  ⟨hu.less.trans hless, entries, h⟩

theorem Holding.unique {held : κ → Option α} (h : t.Holding less held) : t.Unique less := by
  obtain ⟨hless, entries, hdistinct, _⟩ := h
  exact ⟨hless, entries, hdistinct⟩

/-- An operation that leaves a tree with an item held in each class leaves no
    class with two. -/
theorem preserves_of_holding {σ ρ : Type} {tree : σ → Tree key} {a : Action σ κ ρ} {item : α}
    {after : (κ → Option α) → κ → Option α}
    (h : ∀ s held, (tree s).Holding less held →
      a.wp (fun _ n => (tree n).Holding less (after held))
        (fun fault n => (tree n).Unabsorbed less held item fault) s) :
    a.Preserves fun s => (tree s).Unique less := by
  rintro s ⟨hless, entries, hdistinct⟩
  refine wp_mono (h s _ ⟨hless, entries, hdistinct, rfl⟩) ?_ ?_
  · exact fun _ n hn => hn.unique
  · rintro fault n ⟨_, _, _, hn⟩
    exact hn.unique

theorem preserves_add (hless : StrictWeak less) (item : α) : (add item : Op key Bool).Preserves (Unique less) :=
  preserves_of_holding fun _ _ hheld => hheld.add hless item

theorem preserves_dequeue (hless : StrictWeak less) (view : α → β) (k : κ) :
    (dequeue view k : Op key (Option β)).Preserves (Unique less) := by
  rintro t ⟨rfl, entries, h⟩
  obtain ⟨lower, here, upper, rfl, hbounds⟩ := h.exists_bounds hless k
  refine (h.dequeue hbounds view).mono ?_
  rintro _ u ⟨_, hu, hdone⟩
  exact hdone.unique hu rfl

theorem preserves_popFirst : (popFirst : Op key (Option α)).Preserves (Unique less) := by
  rintro t ⟨hless, entries, h⟩
  refine h.represents.popFirst.mono ?_
  rintro _ u ⟨_, hu, hrep⟩
  exact (h.of_sublist hu hrep (List.tail_sublist entries)).unique hu hless

theorem preserves_popLast : (popLast : Op key (Option α)).Preserves (Unique less) := by
  rintro t ⟨hless, entries, h⟩
  refine h.represents.popLast.mono ?_
  rintro _ u ⟨_, hu, hrep⟩
  exact (h.of_sublist hu hrep (List.dropLast_sublist entries)).unique hu hless

theorem preserves_clear : (clear : Op key Unit).Preserves (Unique less) := by
  rintro t ⟨hless, entries, h⟩
  refine h.represents.clear.mono ?_
  rintro _ u ⟨hu, hrep⟩
  exact (h.of_sublist hu hrep (List.nil_sublist entries)).unique hu hless

theorem Unique.clone (h : t.Unique less) (tag : UInt64) :
    ∃ copy, t.clone (.arena .empty) tag = .ok copy ∧ copy.Unique less := by
  obtain ⟨hless, entries, hdistinct⟩ := h
  obtain ⟨copy, new, hrun, hcopy, hsame, _, _, hitems⟩ := hdistinct.represents.clone tag
  refine ⟨copy, hrun, hsame.trans hless, new, hcopy, ?_⟩
  have hascending : StrictlyAscending t.less key (entries.map Prod.snd) := List.pairwise_map.mpr hdistinct.ascending
  rw [← hitems, ← hsame] at hascending
  exact List.pairwise_map.mp hascending

end Unique

end Tree

end RedBlack
