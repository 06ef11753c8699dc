import RedBlack.Proofs.Sorted.Map
import RedBlack.Proofs.Sorted.Set
import RedBlack.Proofs.Tree.Distinct

namespace RedBlack

open RedBlack.Action RedBlack.Tree

variable {σ α κ ν ρ : Type} {less : κ → κ → Bool}

/-- An operation that adds an item between others: it answers, and the item is
    there. Where all slots are in use it stops, and nothing has changed. -/
def Adds (items : σ → Except Fault (List α)) (a : Action σ κ ρ) (s : σ) (answer : ρ) (before : List α) (x : α)
    (after : List α) : Prop :=
  if before.length + after.length < Handle.maxSlots then
    (a.run s).answer = .ok answer ∧ items (a.run s).state = .ok (before ++ x :: after)
  else (a.run s).answer = .error .allocationFailed ∧ items (a.run s).state = .ok (before ++ after)

/-- What taking in a list comes to, given what `pick` knows of each class of a
    list: one entry for each class, and a stop only where the arena is full. -/
inductive Collects (items : σ → Except Fault (List α)) (a : Action σ κ Unit) (s : σ) (less : κ → κ → Bool) (key : α → κ)
    (pick : List α → κ → Option α) (new : List α) : Prop where
  /-- All of it has been taken in. -/
  | all {left : List α} : (a.run s).answer = .ok () → items (a.run s).state = .ok left →
    OnePerClass less key (pick new) left → Collects items a s less key pick new
  /-- It brought an item of yet another class when all slots were in use, and
      was taken in up to there. -/
  | full {done rest left : List α} {x : α} : new = done ++ x :: rest → pick done (key x) = none →
    (a.run s).answer = .error .allocationFailed → items (a.run s).state = .ok left →
    OnePerClass less key (pick done) left → left.length = Handle.maxSlots → Collects items a s less key pick new

section Tree

variable {key : α → κ} {tree : σ → Tree key} {items : σ → Except Fault (List α)} {t : Tree key}
  {lower upper : List (Slot × α)} {s : σ} {x : α}

theorem adds_of_wp (hitems : ∀ s, items s = (tree s).items) {a : Action σ κ ρ} {answer : ρ}
    (h : a.wp
      (fun value n => value = answer ∧ (tree n).Continues t ∧
        ∃ slot, (tree n).Distinct (lower ++ (slot, x) :: upper) .idle)
      (fun fault n => fault = .allocationFailed ∧ ¬ (tree n).store.HasRoom ∧ (tree n).Continues t ∧
        (tree n).Distinct (lower ++ upper) .idle) s) :
    Adds items a s answer (lower.map Prod.snd) x (upper.map Prod.snd) := by
  unfold wp at h
  rw [Adds, List.length_map, List.length_map, hitems]
  split at h
  · next value hrun =>
    obtain ⟨rfl, _, slot, hdone⟩ := h
    have hlength := hdone.represents.store.length_le
    rw [List.length_append, List.length_cons] at hlength
    rw [if_pos (by omega)]
    exact ⟨hrun, by simpa using hdone.represents.items⟩
  · next fault hrun =>
    obtain ⟨rfl, hroom, _, hdone⟩ := h
    have hfull := hdone.represents.size_of_full hroom
    rw [hdone.represents.size, List.length_append] at hfull
    rw [if_neg (by omega)]
    exact ⟨hrun, by simpa using hdone.represents.items⟩

/-- Items that are taken in one by one, from nothing held, are collected. -/
theorem collects_of_absorbs (tree : σ → Tree key) (hitems : ∀ s, items s = (tree s).items)
    {insert : α → Action σ κ Unit} {merge : Option α → α → α}
    (hinsert : ∀ x s held, (tree s).Holding less held →
      (insert x).wp (fun _ n => (tree n).Holding less (absorb less key merge held x))
        (fun fault n => (tree n).Unabsorbed less held x fault) s)
    (hs : (tree s).Holding less fun _ => none) (new : List α) :
    Collects items (new.forM insert) s less key
      (fun new k => (new.filter fun x => alike less k (key x)).foldl (fun there x => some (merge there x)) none)
      new := by
  have hfold (new : List α) : (fun k => (new.filter fun x => alike less k (key x)).foldl
      (fun there x => some (merge there x)) none) = new.foldl (absorb less key merge) fun _ => none := by
    funext k
    rw [foldl_absorb]
  have hrun := wp_absorbs hinsert new hs
  unfold wp at hrun
  split at hrun
  · next _ hanswer =>
    obtain ⟨left, hleft, hclasses, _⟩ := hrun.exists_items
    refine .all hanswer (by rw [hitems, hleft]) ?_
    rwa [hfold]
  · next fault hanswer =>
    obtain ⟨done, x, rest, rfl, rfl, hfull, hnone, hholding⟩ := hrun
    obtain ⟨left, hleft, hclasses, hsize⟩ := hholding.exists_items
    refine .full rfl ?_ hanswer (by rw [hitems, hleft]) ?_ (hsize.symm.trans hfull)
    · rw [← foldl_absorb less key merge done (fun _ => none)]
      exact hnone
    · rwa [hfold]

end Tree

namespace SortedMap

variable {m : SortedMap κ ν} {lower upper : List (Slot × (κ × ν))} {here : Option (Slot × (κ × ν))}
  {o : Outside (κ × ν)} {slot : Slot} {k k' : κ} {old : ν}

/-- One value has given way to another. No node has another slot, another
    colour, other links or another key, and no other value has changed. -/
structure Rebound (m : SortedMap κ ν) (k : κ) (old v : ν) (n : SortedMap κ ν) : Prop where
  nodes : ∃ before links after, m.tree.nodes = .ok (before ++ (links, (k, old)) :: after) ∧
    n.tree.nodes = .ok (before ++ (links, (k, v)) :: after)
  links : m.tree.SameLinks n.tree

/-- What a map does about a key, given its entries: those before the class of
    the key, the one of the class, if there is one, and those after it. -/
structure ServesKey (m : SortedMap κ ν) (less : κ → κ → Bool) (k : κ) (before : List (κ × ν)) (here : Option (κ × ν))
    (after : List (κ × ν)) : Prop where
  entries : m.entries = .ok (before ++ here.toList ++ after)
  parted : Parted less Prod.fst k before here.toList after
  insert_there : ∀ k' old v, here = some (k', old) → ((insert k v).run m).answer = .ok (some old) ∧
    m.Rebound k' old v ((insert k v).run m).state ∧
    ((insert k v).run m).state.entries = .ok (before ++ (k', v) :: after)
  insert_vacant : ∀ v, here = none → Adds SortedMap.entries (insert k v) m none before (k, v) after
  tryInsert_there : ∀ v, here.isSome → ((tryInsert k v).run m).answer = .ok false ∧ ((tryInsert k v).run m).state = m
  tryInsert_vacant : ∀ v, here = none → Adds SortedMap.entries (tryInsert k v) m true before (k, v) after
  remove : ((remove k).run m).answer = .ok (here.map Prod.snd) ∧
    ((remove k).run m).state.entries = .ok (before ++ after)

theorem insert_there (h : m.tree.Distinct (lower ++ (slot, (k', old)) :: upper) o)
    (hbounds : m.tree.Bounds k lower [(slot, (k', old))] upper) (v : ν) :
    (insert k v).Yields m fun answer n => answer = some old ∧ n.tree.Continues m.tree ∧ m.tree.SameLinks n.tree ∧
      n.tree.Distinct (lower ++ (slot, (k', v)) :: upper) o := by
  have hrep := h.represents
  have halike : alike m.tree.less k k' = true := hbounds.parted.between _ (List.mem_singleton_self _)
  have hnot := (alike_eq_true_iff.mp halike).1
  rw [insert, Yields, wp_onTree, wp_bind, wp_ask_ok (s := m.tree) hbounds.lowerBound, wp_bind,
    wp_look_ok (s := m.tree) hrep.get, wp_bind, wp_ask_ok (s := m.tree) (answer_bound m.tree k _)]
  have hfound : ((List.head? ((slot, (k', old)) :: upper)).map Prod.snd).filter (fun e => !m.tree.less k e.1) =
      some (k', old) := by
    simp [Option.filter, hnot]
  rw [hfound]
  simp only
  rw [wp_bind]
  refine (hrep.modify rfl rfl _).mono ?_
  rintro _ u ⟨hu, hlinks, hdone⟩
  rw [wp_pure]
  refine ⟨rfl, hu, hlinks, hdone, ?_⟩
  rw [hu.less]
  exact h.ascending.congr (by simp)

theorem insert_vacant (h : m.tree.Distinct (lower ++ upper) o) (hless : StrictWeak m.tree.less)
    (hbounds : m.tree.Bounds k lower [] upper) (v : ν) :
    (insert k v).wp
      (fun answer n => answer = none ∧ n.tree.Continues m.tree ∧
        ∃ slot, n.tree.Distinct (lower ++ (slot, (k, v)) :: upper) o)
      (fun fault n => fault = .allocationFailed ∧ ¬ n.tree.store.HasRoom ∧ n.tree.Continues m.tree ∧
        n.tree.Distinct (lower ++ upper) o) m := by
  have hrep := h.represents
  rw [insert, wp_onTree, wp_bind, wp_ask_ok (s := m.tree) hbounds.lowerBound, wp_bind,
    wp_look_ok (s := m.tree) hrep.get, wp_bind, wp_ask_ok (s := m.tree) (answer_bound m.tree k _)]
  have hnone : (upper.head?.map Prod.snd).filter (fun e => !m.tree.less k e.1) = none := by
    cases upper with
    | nil => rfl
    | cons b rest =>
      have hlt : m.tree.less k b.2.1 = true := hbounds.parted.after b (by simp)
      simp [Option.filter, hlt]
  rw [List.nil_append, hnone]
  simp only
  have hhint := hrep.liveOrEnd
  rw [wp_bind, insertUniqueHint, wp_bind, wp_owned hhint.1]
  refine (h.insertUniqueBy_vacant hless hbounds.parted (findsUnique_hinted (hrep.slot_mem hhint))).mono ?_
  rintro _ u ⟨hu, ⟨slot, rfl, hdone⟩ | ⟨rfl, hroom, hdone⟩⟩
  · exact ⟨rfl, hu, slot, hdone⟩
  · exact ⟨rfl, hroom, hu, hdone⟩

theorem holding_insert {held : κ → Option (κ × ν)} (h : m.tree.Holding less held) (hless : StrictWeak less)
    (e : κ × ν) :
    (insert e.1 e.2).wp (fun _ n => n.tree.Holding less (absorb less Prod.fst keepKey held e))
      (fun fault n => n.tree.Unabsorbed less held e fault) m := by
  obtain ⟨rfl, entries, hdistinct, rfl⟩ := h
  obtain ⟨lower, here, upper, rfl, hbounds⟩ := hdistinct.exists_bounds hless e.1
  cases here with
  | none =>
    have hvacant : m.tree.Distinct (lower ++ upper) .idle := by simpa using hdistinct
    refine wp_mono (insert_vacant hvacant hless hbounds e.2) ?_ ?_
    · rintro _ n ⟨_, hn, slot, hdone⟩
      exact hdone.holding_put hless hbounds (hless.alike_self _) hn
    · rintro fault n ⟨hfault, hroom, hn, hdone⟩
      rw [Option.toList_none, List.append_nil]
      exact hdone.unabsorbed hbounds hfault hroom hn
  | some there =>
    have hthere : m.tree.Distinct (lower ++ there :: upper) .idle := by simpa using hdistinct
    refine (insert_there hthere hbounds e.2).mono ?_
    rintro _ n ⟨_, hn, _, hdone⟩
    exact hdone.holding_put hless hbounds (hbounds.parted.between there (by simp)) hn

theorem preserves_insert (hless : StrictWeak less) (k : κ) (v : ν) :
    (insert k v).Preserves fun m => m.tree.Unique less :=
  preserves_of_holding fun _ _ hheld => holding_insert hheld hless (k, v)

theorem preserves_onTree {op : Tree.Op (Prod.fst : κ × ν → κ) ρ} {holds : Tree (Prod.fst : κ × ν → κ) → Prop}
    (h : op.Preserves holds) : (onTree op).Preserves fun m => holds m.tree := by
  intro m hm
  rw [wp_onTree]
  exact h m.tree hm

theorem preserves_modify (k : κ) (change : ν → ν) : (modify k change).Preserves fun m => m.tree.Unique less := by
  rintro m ⟨hless, entries, h⟩
  refine (modify_spec h.represents k change).mono ?_
  rintro _ n ⟨hn, left, hrep, hkeys⟩
  refine ⟨hn.less.trans hless, left, hrep, ?_⟩
  rw [hn.less]
  apply h.ascending.congr
  simpa [Function.comp_def] using congrArg (List.map Prod.snd) hkeys

theorem Command.preserves (hless : StrictWeak less) (c : Command κ ν) :
    c.run.Preserves fun m => m.tree.Unique less := by
  cases c with
  | insert k v => exact (preserves_insert hless k v).map _
  | tryInsert k v => exact (preserves_onTree (preserves_add hless (k, v))).map _
  | extend new =>
    apply Preserves.forM
    intro e
    exact (preserves_insert hless e.1 e.2).map _
  | modify k change =>
    apply Preserves.map
    exact preserves_modify k change
  | remove k => exact (preserves_onTree (preserves_dequeue hless Prod.snd k)).map _
  | popFirst => exact (preserves_onTree preserves_popFirst).map _
  | popLast => exact (preserves_onTree preserves_popLast).map _
  | clear => exact preserves_onTree preserves_clear
  | get | contains | lowerBound | upperBound | compareKeys | compareEntries => exact (preserves_ask _).map _
  | first | last | entries | walk | keys | values => exact (preserves_look _).map _

theorem Reachable.unique (h : m.Reachable less) (hless : StrictWeak less) : m.tree.Unique less := by
  induction h with
  | empty => exact unique_empty
  | @step m c _ ih => exact state_of_wp (c.preserves hless m ih)
  | clone _ hclone ih =>
    obtain ⟨copy, hrun, hcopy⟩ := ih.clone 0
    rw [SortedMap.clone, hrun] at hclone
    obtain rfl := Except.ok.inj hclone
    exact hcopy

theorem servesKey (h : m.tree.Distinct (lower ++ here.toList ++ upper) .idle) (hless : StrictWeak m.tree.less)
    (hbounds : m.tree.Bounds k lower here.toList upper) :
    m.ServesKey m.tree.less k (lower.map Prod.snd) (here.map Prod.snd) (upper.map Prod.snd) where
  entries := by
    have hitems : m.entries = .ok _ := h.represents.items
    rw [hitems, List.map_append, List.map_append, Option.toList_map]
  parted := hbounds.parted_items
  insert_there := by
    intro k' old v hhere
    obtain ⟨⟨slot, e⟩, rfl, he⟩ := Option.map_eq_some_iff.mp hhere
    subst he
    have hthere : m.tree.Distinct (lower ++ (slot, (k', old)) :: upper) .idle := by simpa using h
    obtain ⟨_, hanswer, rfl, hn, hlinks, hdone⟩ := (insert_there hthere hbounds v).answer
    refine ⟨hanswer, ⟨hlinks.nodes hthere.represents hdone.represents, hlinks⟩, ?_⟩
    rw [SortedMap.entries, hdone.represents.items, List.map_append, List.map_cons]
  insert_vacant := by
    intro v hhere
    obtain rfl := Option.map_eq_none_iff.mp hhere
    have hvacant : m.tree.Distinct (lower ++ upper) .idle := by simpa using h
    exact adds_of_wp (fun _ => rfl) (insert_vacant hvacant hless hbounds v)
  tryInsert_there := by
    intro v hhere
    obtain ⟨_, hx⟩ := Option.isSome_iff_exists.mp hhere
    obtain ⟨e, rfl, _⟩ := Option.map_eq_some_iff.mp hx
    have hthere : m.tree.Distinct (lower ++ e :: upper) .idle := by simpa using h
    have hadd : (Tree.add (k, v)).Yields m.tree fun added u => added = false ∧ u = m.tree :=
      hthere.add_there hless hbounds.parted
    obtain ⟨_, hanswer, rfl, hsame⟩ := hadd.answer
    exact ⟨hanswer, congrArg SortedMap.mk hsame⟩
  tryInsert_vacant := by
    intro v hhere
    obtain rfl := Option.map_eq_none_iff.mp hhere
    have hvacant : m.tree.Distinct (lower ++ upper) .idle := by simpa using h
    exact adds_of_wp (fun _ => rfl) ((wp_onTree _).mpr (hvacant.add_vacant hless hbounds.parted))
  remove := by
    obtain ⟨_, hanswer, rfl, _, hdone⟩ := (h.dequeue hbounds Prod.snd).answer
    rw [Option.map_map, ← List.map_append]
    exact ⟨hanswer, hdone.represents.items⟩

/-- A list of bindings leaves the first key of each class with the last value,
    in the order of the comparator. -/
theorem collects (hless : StrictWeak less) (bindings : List (κ × ν)) :
    Collects SortedMap.entries (extend bindings) (.empty less) less Prod.fst (firstKeyLastValue less) bindings := by
  have hpick : firstKeyLastValue less = fun (new : List (κ × ν)) k =>
      (new.filter fun e => alike less k e.1).foldl (fun there e => some (keepKey there e)) none := by
    funext new k
    rw [foldl_keepKey, firstKeyLastValue]
  rw [hpick]
  refine collects_of_absorbs SortedMap.tree (fun _ => rfl) ?_ holding_empty bindings
  intro e m held hheld
  exact (wp_map _ _).mpr (holding_insert hheld hless e)

end SortedMap

namespace SortedSet

variable {s : SortedSet κ} {lower upper : List (Slot × κ)} {here : Option (Slot × κ)} {x : κ}

/-- What a set does about an item, given its items: those before the class of
    the item, the one of the class, if there is one, and those after it. -/
structure ServesItem (s : SortedSet κ) (less : κ → κ → Bool) (x : κ) (before : List κ) (here : Option κ)
    (after : List κ) : Prop where
  items : s.items = .ok (before ++ here.toList ++ after)
  parted : Parted less id x before here.toList after
  insert_there : here.isSome → ((insert x).run s).answer = .ok false ∧ ((insert x).run s).state = s
  insert_vacant : here = none → Adds SortedSet.items (insert x) s true before x after
  get : (s.get x).answer = .ok here
  take : ((take x).run s).answer = .ok here ∧ ((take x).run s).state.items = .ok (before ++ after)

theorem preserves_onTree {op : Tree.Op (id : κ → κ) ρ} {holds : Tree (id : κ → κ) → Prop} (h : op.Preserves holds) :
    (onTree op).Preserves fun s => holds s.tree := by
  intro s hs
  rw [wp_onTree]
  exact h s.tree hs

theorem Command.preserves (hless : StrictWeak less) (c : Command κ) : c.run.Preserves fun s => s.tree.Unique less := by
  have hinsert (x : κ) : (SortedSet.insert x).Preserves fun s => s.tree.Unique less :=
    preserves_onTree (preserves_add hless x)
  have htake (x : κ) : (SortedSet.take x).Preserves fun s => s.tree.Unique less :=
    preserves_onTree (preserves_dequeue hless id x)
  cases c with
  | insert x => exact (hinsert x).map _
  | extend new =>
    apply Preserves.forM
    intro x
    exact (hinsert x).map _
  | take x => exact (htake x).map _
  | remove x => exact ((htake x).map _).map _
  | popFirst => exact (preserves_onTree preserves_popFirst).map _
  | popLast => exact (preserves_onTree preserves_popLast).map _
  | clear => exact preserves_onTree preserves_clear
  | contains | get | lowerBound | upperBound | compareKeys => exact (preserves_ask _).map _
  | first | last | items | walk => exact (preserves_look _).map _

theorem Reachable.unique (h : s.Reachable less) (hless : StrictWeak less) : s.tree.Unique less := by
  induction h with
  | empty => exact unique_empty
  | @step s c _ ih => exact state_of_wp (c.preserves hless s ih)
  | clone _ hclone ih =>
    obtain ⟨copy, hrun, hcopy⟩ := ih.clone 0
    rw [SortedSet.clone, hrun] at hclone
    obtain rfl := Except.ok.inj hclone
    exact hcopy

theorem servesItem (h : s.tree.Distinct (lower ++ here.toList ++ upper) .idle) (hless : StrictWeak s.tree.less)
    (hbounds : s.tree.Bounds x lower here.toList upper) :
    s.ServesItem s.tree.less x (lower.map Prod.snd) (here.map Prod.snd) (upper.map Prod.snd) where
  items := by
    have hitems : s.items = .ok _ := h.represents.items
    rw [hitems, List.map_append, List.map_append, Option.toList_map]
  parted := hbounds.parted_items
  insert_there := by
    intro hhere
    obtain ⟨_, hx⟩ := Option.isSome_iff_exists.mp hhere
    obtain ⟨e, rfl, _⟩ := Option.map_eq_some_iff.mp hx
    have hthere : s.tree.Distinct (lower ++ e :: upper) .idle := by simpa using h
    obtain ⟨_, hanswer, rfl, hsame⟩ := (hthere.add_there hless hbounds.parted).answer
    exact ⟨hanswer, congrArg SortedSet.mk hsame⟩
  insert_vacant := by
    intro hhere
    obtain rfl := Option.map_eq_none_iff.mp hhere
    have hvacant : s.tree.Distinct (lower ++ upper) .idle := by simpa using h
    exact adds_of_wp (fun _ => rfl) ((wp_onTree _).mpr (hvacant.add_vacant hless hbounds.parted))
  get := by
    obtain ⟨p, hfind, hget⟩ := h.get_find hbounds
    rw [SortedSet.get, Query.answer_bind, hfind, ok_bind, Query.answer_lift, hget]
  take := by
    obtain ⟨_, hanswer, rfl, _, hdone⟩ := (h.dequeue hbounds id).answer
    rw [← List.map_append]
    exact ⟨hanswer, hdone.represents.items⟩

theorem collects (hless : StrictWeak less) (new : List κ) :
    Collects SortedSet.items (extend new) (.empty less) less id (stored less id) new := by
  have hpick : stored less id = fun (new : List κ) k =>
      (new.filter fun x => alike less k (id x)).foldl (fun there x => some (keepFirst there x)) none := by
    funext new k
    rw [foldl_keepFirst, Option.none_or, List.head?_filter, stored]
  rw [hpick]
  refine collects_of_absorbs SortedSet.tree (fun _ => rfl) ?_ holding_empty new
  intro x s held hheld
  exact (wp_map _ _).mpr ((wp_onTree _).mpr (hheld.add hless x))

end SortedSet

/-- Whatever requests led to a map or a set, and however coarse the comparator
    is, a key has one entry at most, and that entry decides what becomes of the
    key: the key that came first stays, and every operation acts on the entry
    stored. So a list of bindings leaves of each class the first key with the
    last value, and a list of items the first item. -/
theorem unique_containers_keep_first (hless : StrictWeak less) :
    (∀ m : SortedMap κ ν, m.Reachable less → ∀ k, ∃ before here after, m.ServesKey less k before here after) ∧
    (∀ s : SortedSet κ, s.Reachable less → ∀ x, ∃ before here after, s.ServesItem less x before here after) ∧
    (∀ bindings : List (κ × ν), Collects SortedMap.entries (SortedMap.extend bindings) (.empty less) less Prod.fst
      (firstKeyLastValue less) bindings) ∧
    ∀ new : List κ, Collects SortedSet.items (SortedSet.extend new) (.empty less) less id (stored less id) new := by
  refine ⟨?_, ?_, SortedMap.collects hless, SortedSet.collects hless⟩
  · intro m hm k
    obtain ⟨rfl, entries, h⟩ := hm.unique hless
    obtain ⟨lower, here, upper, rfl, hbounds⟩ := h.exists_bounds hless k
    exact ⟨_, _, _, SortedMap.servesKey h hless hbounds⟩
  · intro s hs x
    obtain ⟨rfl, entries, h⟩ := hs.unique hless
    obtain ⟨lower, here, upper, rfl, hbounds⟩ := h.exists_bounds hless x
    exact ⟨_, _, _, SortedSet.servesItem h hless hbounds⟩

/-- Pairs are told apart by their first parts. The map was given the keys (1, 1)
    and (1, 3); it has the first one with the value of the second, and gives it
    yet another value. The set has the first of two items of a class, and hands
    it out. -/
theorem unique_containers_keep_first_pairs :
    ∃ (m n : SortedMap (Nat × Nat) Char) (s : SortedSet (Nat × Nat)),
      m.entries = .ok [((1, 1), 'c'), ((2, 2), 'b')] ∧ ((SortedMap.insert (1, 9) 'd').run m).answer = .ok (some 'c') ∧
      m.Rebound (1, 1) 'c' 'd' n ∧ n.entries = .ok [((1, 1), 'd'), ((2, 2), 'b')] ∧ s.items = .ok [(0, 5), (1, 7)] ∧
      ((SortedSet.take (1, 0)).run s).answer = .ok (some (1, 7)) := by
  have hless : StrictWeak fun a b : Nat × Nat => decide (a.1 < b.1) := StrictWeak.decide_lt.comap Prod.fst
  obtain ⟨hmaps, hsets, _, _⟩ := unique_containers_keep_first (ν := Char) hless
  obtain ⟨before, here, after, hm⟩ := hmaps _
    (.step (c := .extend [((1, 1), 'a'), ((2, 2), 'b'), ((1, 3), 'c')]) .empty) (1, 9)
  obtain ⟨before', here', after', hs⟩ := hsets _ (.step (c := .extend [(1, 7), (0, 5), (1, 6)]) .empty) (1, 0)
  have hentries : before ++ here.toList ++ after = [((1, 1), 'c'), ((2, 2), 'b')] :=
    Except.ok.inj (hm.entries.symm.trans (by decide +kernel))
  have hitems : before' ++ here'.toList ++ after' = [(0, 5), (1, 7)] :=
    Except.ok.inj (hs.items.symm.trans (by decide +kernel))
  have hhere : here = some ((1, 1), 'c') := by
    rw [← hm.parted.stored_self, hentries]
    rfl
  have hhere' : here' = some (1, 7) := by
    rw [← hs.parted.stored_self, hitems]
    rfl
  obtain ⟨hanswer, hrebound, _⟩ := hm.insert_there _ _ 'd' hhere
  refine ⟨_, _, _, by rw [hm.entries, hentries], hanswer, hrebound, by decide +kernel, by rw [hs.items, hitems], ?_⟩
  rw [hs.take.1, hhere']

end RedBlack
