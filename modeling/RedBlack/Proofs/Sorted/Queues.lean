import RedBlack.Proofs.Tree.Queued
import RedBlack.Sorted.Bag
import RedBlack.Sorted.MultiMap

namespace RedBlack

open RedBlack.Action RedBlack.Tree

namespace Queues

variable {α β κ σ : Type}

/-- A container beside its queues, in a run of calls that are answered and of
    copies. It says nothing yet of what either of them answers. -/
inductive Lockstep (less : κ → κ → Bool) (key : α → κ) (call : Call α κ → Action σ κ (Reply β))
    (clone : σ → Except Fault σ) (origin : σ) : σ → Queues α κ → Prop where
  | origin : Lockstep less key call clone origin origin empty
  | call {s : σ} {q : Queues α κ} {c : Call α κ} {r : Reply β} : Lockstep less key call clone origin s q →
    ((call c).run s).answer = .ok r →
    Lockstep less key call clone origin ((call c).run s).state (q.after less key c)
  | clone {s copy : σ} {q : Queues α κ} : Lockstep less key call clone origin s q → clone s = .ok copy →
    Lockstep less key call clone origin copy q

variable {key : α → κ} {less : κ → κ → Bool} {tree : σ → Tree key}

/-- The tree of a container lists the queues in the order of the comparator.
    Every call keeps this until the arena is full, and so every run does. -/
def Shown (tree : σ → Tree key) (less : κ → κ → Bool) (s : σ) (q : Queues α κ) : Prop :=
  (tree s).less = less ∧ (tree s).Queued q

/-- A call that stopped for want of a slot. -/
def StoppedFull (tree : σ → Tree key) (fault : Fault) (s : σ) : Prop :=
  fault = .allocationFailed ∧ (tree s).size = Handle.maxSlots

/-- A container that serves each call as its queues do: the reply is theirs, and
    so is what is left. -/
structure ServedBy (tree : σ → Tree key) (less : κ → κ → Bool) (call : Call α κ → Action σ κ (Reply β))
    (clone : σ → Except Fault σ) (view : α → β) : Prop where
  call : ∀ c s q, Shown tree less s q →
    (call c).wp (fun reply n => reply = q.reply view c ∧ Shown tree less n (q.after less key c))
      (fun fault n => c.Inserts ∧ StoppedFull tree fault n) s
  clone : ∀ s q, Shown tree less s q → ∃ copy, clone s = .ok copy ∧ Shown tree less copy q

variable {call : Call α κ → Action σ κ (Reply β)} {clone : σ → Except Fault σ} {view : α → β} {origin s : σ}
  {q : Queues α κ}

theorem Lockstep.shown (h : Lockstep less key call clone origin s q) (hserved : ServedBy tree less call clone view)
    (horigin : Shown tree less origin empty) : Shown tree less s q := by
  induction h with
  | origin => exact horigin
  | @call s q c r _ hanswer ih =>
    have hstep := hserved.call c s q ih
    rw [wp, hanswer] at hstep
    exact hstep.2
  | @clone s copy q _ hclone ih =>
    obtain ⟨copy', hcopy, hshown⟩ := hserved.clone s q ih
    obtain rfl := Except.ok.inj (hcopy.symm.trans hclone)
    exact hshown

/-- A call is answered as the queues reply, unless it brings an item for which
    there is no slot. -/
theorem ServedBy.answer (h : ServedBy tree less call clone view) (hs : Shown tree less s q) (c : Call α κ) :
    ((call c).run s).answer = .ok (q.reply view c) ∨
      c.Inserts ∧ ((call c).run s).answer = .error .allocationFailed ∧
        (tree ((call c).run s).state).size = Handle.maxSlots := by
  have hstep := h.call c s q hs
  unfold wp at hstep
  split at hstep
  · next reply hanswer =>
    rw [hanswer, hstep.1]
    exact .inl rfl
  · next fault hanswer =>
    obtain ⟨hinserts, rfl, hfull⟩ := hstep
    exact .inr ⟨hinserts, hanswer, hfull⟩

/-- Items that are inserted one after the other join their queues in that
    order. -/
theorem wp_joins {insert : α → Action σ κ Unit} {stopped : Fault → σ → Prop}
    (hinsert : ∀ x s q, Shown tree less s q →
      (insert x).wp (fun _ n => Shown tree less n (q.join less key x)) stopped s)
    (items : List α) (hs : Shown tree less s q) :
    (items.forM insert).wp (fun _ n => Shown tree less n (items.foldl (join less key) q)) stopped s := by
  induction items generalizing s q with
  | nil => exact hs
  | cons x rest ih =>
    change (insert x >>= fun _ => rest.forM insert).wp _ _ s
    rw [wp_bind]
    exact wp_mono (hinsert x s q hs) (fun _ _ hn => ih hn) fun _ _ hstopped => hstopped

theorem Shown.enqueue (h : Shown tree less s q) (hless : StrictWeak less) {put : Tree key → σ → σ}
    (hput : ∀ t s, tree (put t s) = t) (item : α) :
    ((Tree.enqueue item).within tree put).wp (fun _ n => Shown tree less n (q.join less key item))
      (fun fault n => fault = .allocationFailed ∧ (tree n).size = Handle.maxSlots ∧ Shown tree less n q) s := by
  obtain ⟨rfl, hqueued⟩ := h
  rw [wp_within]
  simp only [Shown, hput]
  refine wp_mono (hqueued.enqueue hless item) ?_ ?_
  · rintro _ u ⟨hu, hjoined⟩
    exact ⟨hu.less, hjoined⟩
  · rintro fault u ⟨hfault, hfull, hu, hsame⟩
    exact ⟨hfault, hfull, hu.less, hsame⟩

/-- A container whose calls are operations on the tree inside it is served by
    the queues that the tree lists. -/
theorem servedBy_of_tree (hless : StrictWeak less) (put : Tree key → σ → σ) (hput : ∀ t s, tree (put t s) = t)
    (hinsert : ∀ x, call (.insert x) = (fun _ => .done) <$> (enqueue x).within tree put)
    (hextend : ∀ items, call (.extend items) = (fun _ => .done) <$> items.forM fun x => (enqueue x).within tree put)
    (hremoveOne : ∀ k, call (.removeOne k) = .taken <$> (dequeue view k).within tree put)
    (hremoveAll : ∀ k, call (.removeAll k) = .removed <$> (eraseKey k).within tree put)
    (hclear : call .clear = (fun _ => .done) <$> Tree.clear.within tree put)
    (hclone : ∀ s copy, (tree s).clone (.arena .empty) 0 = .ok copy → ∃ n, clone s = .ok n ∧ tree n = copy) :
    ServedBy tree less call clone view where
  call c s q h := by
    have hjoins (x : α) (s : σ) (q : Queues α κ) (h : Shown tree less s q) :
        ((enqueue x).within tree put).wp (fun _ n => Shown tree less n (q.join less key x)) (StoppedFull tree) s :=
      wp_mono (h.enqueue hless hput x) (fun _ _ hn => hn) fun _ _ hstopped => ⟨hstopped.1, hstopped.2.1⟩
    cases c with
    | insert x =>
      rw [hinsert, wp_map]
      exact wp_mono (hjoins x s q h) (fun _ _ hn => ⟨rfl, hn⟩) fun _ _ hstopped => ⟨trivial, hstopped⟩
    | extend items =>
      rw [hextend, wp_map]
      exact wp_mono (wp_joins hjoins items h) (fun _ _ hn => ⟨rfl, hn⟩) fun _ _ hstopped => ⟨trivial, hstopped⟩
    | removeOne k =>
      obtain ⟨rfl, hqueued⟩ := h
      rw [hremoveOne, wp_map, wp_within]
      refine (hqueued.dequeue hless view k).mono ?_
      rintro _ u ⟨rfl, hu, hserved⟩
      simp only [Shown, hput]
      exact ⟨rfl, hu.less, hserved⟩
    | removeAll k =>
      obtain ⟨rfl, hqueued⟩ := h
      rw [hremoveAll, wp_map, wp_within]
      refine (hqueued.eraseKey hless k).mono ?_
      rintro _ u ⟨rfl, hu, hdissolved⟩
      simp only [Shown, hput]
      exact ⟨rfl, hu.less, hdissolved⟩
    | clear =>
      obtain ⟨rfl, hqueued⟩ := h
      rw [hclear, wp_map, wp_within]
      refine hqueued.clear.mono ?_
      rintro _ u ⟨hu, hempty⟩
      simp only [Shown, hput]
      exact ⟨rfl, hu.less, hempty⟩
  clone s q h := by
    obtain ⟨rfl, hqueued⟩ := h
    obtain ⟨copy, hrun, hsame, hcopy⟩ := hqueued.clone 0
    obtain ⟨n, hn, rfl⟩ := hclone s copy hrun
    exact ⟨n, hn, hsame, hcopy⟩

end Queues

open Queues

variable {κ ν : Type} {less : κ → κ → Bool}

namespace SortedMultiMap

/-- What a multimap does on a call. -/
def call : Call (κ × ν) κ → Op κ ν (Queues.Reply ν)
  | .insert entry => (fun _ => .done) <$> SortedMultiMap.insert entry.1 entry.2
  | .extend entries => (fun _ => .done) <$> SortedMultiMap.extend entries
  | .removeOne k => .taken <$> SortedMultiMap.removeOne k
  | .removeAll k => .removed <$> SortedMultiMap.removeAll k
  | .clear => (fun _ => .done) <$> SortedMultiMap.clear

/-- What the queues say of every question to a multimap, and of every call. -/
structure AnswersAs (m : SortedMultiMap κ ν) (less : κ → κ → Bool) (q : Queues (κ × ν) κ) : Prop where
  getAll : ∀ k, ∃ w, (m.getAll k).answer = .ok w ∧ ∀ script,
    ∃ w', w.follow script = .ok (takeEnds script ((q k).map Prod.snd), w')
  count : ∀ k, (m.count k).answer = .ok (q k).length
  contains : ∀ k, (m.contains k).answer = .ok !(q k).isEmpty
  /-- One list of the classes in order answers whatever goes over all
      entries. -/
  listing : ∃ entries, q.Lists less Prod.fst entries ∧ m.size = entries.length ∧ m.entries = .ok entries ∧
    (∀ script, ∃ w', m.walk.follow script = .ok (takeEnds script entries, w')) ∧
    (∀ k, (m.lowerBound k).answer = .ok (entries.find? fun e => !less e.1 k)) ∧
    ∀ k, (m.upperBound k).answer = .ok (entries.find? fun e => less k e.1)
  clone : ∃ n, m.clone = .ok n
  calls : ∀ c, ((SortedMultiMap.call c).run m).answer = .ok (q.reply Prod.snd c) ∨
    c.Inserts ∧ ((SortedMultiMap.call c).run m).answer = .error .allocationFailed ∧
      ((SortedMultiMap.call c).run m).state.size = Handle.maxSlots

theorem servedBy (hless : StrictWeak less) :
    ServedBy SortedMultiMap.tree less (call : Call (κ × ν) κ → Op κ ν (Queues.Reply ν)) SortedMultiMap.clone Prod.snd :=
  servedBy_of_tree hless (fun t _ => { tree := t }) (fun _ _ => rfl) (fun _ => rfl) (fun _ => rfl) (fun _ => rfl)
    (fun _ => rfl) rfl fun m copy hrun => ⟨{ tree := copy }, by rw [SortedMultiMap.clone, hrun]; rfl, rfl⟩

theorem answersAs (hless : StrictWeak less) {m : SortedMultiMap κ ν} {q : Queues (κ × ν) κ}
    (h : Shown SortedMultiMap.tree less m q) : m.AnswersAs less q := by
  obtain ⟨rfl, hqueued⟩ := id h
  constructor
  · intro k
    obtain ⟨w, hwalk, hfollow⟩ := hqueued.walkEqual hless k Prod.snd
    exact ⟨w.map Prod.snd, by simp [getAll, hwalk], hfollow⟩
  · exact hqueued.count hless
  · exact hqueued.contains hless
  · obtain ⟨entries, hlists, hlisting⟩ := hqueued.listing hless
    refine ⟨entries, hlists, hlisting.size, hlisting.read, hlisting.walk, ?_, ?_⟩
    · intro k
      obtain ⟨p, hbound, hget⟩ := hlisting.lowerBound k
      simp [SortedMultiMap.lowerBound, hbound, hget]
    · intro k
      obtain ⟨p, hbound, hget⟩ := hlisting.upperBound k
      simp [SortedMultiMap.upperBound, hbound, hget]
  · obtain ⟨copy, hclone, _⟩ := (servedBy hless).clone m q h
    exact ⟨copy, hclone⟩
  · exact (servedBy hless).answer h

end SortedMultiMap

namespace SortedBag

/-- What a bag does on a call. -/
def call : Call κ κ → Op κ (Queues.Reply κ)
  | .insert x => (fun _ => .done) <$> SortedBag.insert x
  | .extend items => (fun _ => .done) <$> SortedBag.extend items
  | .removeOne x => .taken <$> SortedBag.removeOne x
  | .removeAll x => .removed <$> SortedBag.removeAll x
  | .clear => (fun _ => .done) <$> SortedBag.clear

/-- What the queues say of every question to a bag, and of every call. -/
structure AnswersAs (b : SortedBag κ) (less : κ → κ → Bool) (q : Queues κ κ) : Prop where
  equalRange : ∀ x, ∃ w, (b.equalRange x).answer = .ok w ∧ ∀ script,
    ∃ w', w.follow script = .ok (takeEnds script (q x), w')
  count : ∀ x, (b.count x).answer = .ok (q x).length
  contains : ∀ x, (b.contains x).answer = .ok !(q x).isEmpty
  /-- One list of the classes in order answers whatever goes over all items. -/
  listing : ∃ items, q.Lists less id items ∧ b.size = items.length ∧ b.items = .ok items ∧
    ∀ script, ∃ w', b.walk.follow script = .ok (takeEnds script items, w')
  clone : ∃ c, b.clone = .ok c
  calls : ∀ c, ((SortedBag.call c).run b).answer = .ok (q.reply id c) ∨
    c.Inserts ∧ ((SortedBag.call c).run b).answer = .error .allocationFailed ∧
      ((SortedBag.call c).run b).state.size = Handle.maxSlots

theorem servedBy (hless : StrictWeak less) :
    ServedBy SortedBag.tree less (call : Call κ κ → Op κ (Queues.Reply κ)) SortedBag.clone id :=
  servedBy_of_tree hless (fun t _ => { tree := t }) (fun _ _ => rfl) (fun _ => rfl) (fun _ => rfl) (fun _ => rfl)
    (fun _ => rfl) rfl fun b copy hrun => ⟨{ tree := copy }, by rw [SortedBag.clone, hrun]; rfl, rfl⟩

theorem answersAs (hless : StrictWeak less) {b : SortedBag κ} {q : Queues κ κ}
    (h : Shown SortedBag.tree less b q) : b.AnswersAs less q := by
  obtain ⟨rfl, hqueued⟩ := id h
  constructor
  · intro x
    obtain ⟨w, hwalk, hfollow⟩ := hqueued.walkEqual hless x id
    rw [List.map_id] at hfollow
    exact ⟨w, hwalk, hfollow⟩
  · exact hqueued.count hless
  · exact hqueued.contains hless
  · obtain ⟨items, hlists, hlisting⟩ := hqueued.listing hless
    exact ⟨items, hlists, hlisting.size, hlisting.read, hlisting.walk⟩
  · obtain ⟨copy, hclone, _⟩ := (servedBy hless).clone b q h
    exact ⟨copy, hclone⟩
  · exact (servedBy hless).answer h

end SortedBag

theorem Queues.shown_empty {α : Type} (key : α → κ) (less : κ → κ → Bool) (tag : UInt64) :
    Shown id less (Tree.empty key less (.arena .empty) tag) Queues.empty :=
  ⟨rfl, [], represents_empty Store.holds_empty, lists_empty⟩

/-- Whatever calls a multimap or a bag gets and whatever copies are made of it,
    it answers as one queue for each class of keys does, and lists the classes
    in the order of the comparator. A call stops only if all slots are in
    use. -/
theorem multi_containers_are_queues (hless : StrictWeak less) :
    (∀ (m : SortedMultiMap κ ν) (q : Queues (κ × ν) κ),
      Lockstep less Prod.fst SortedMultiMap.call SortedMultiMap.clone (.empty less) m q → m.AnswersAs less q) ∧
    ∀ (b : SortedBag κ) (q : Queues κ κ),
      Lockstep less id SortedBag.call SortedBag.clone (.empty less) b q → b.AnswersAs less q := by
  constructor
  · intro m q hrun
    exact SortedMultiMap.answersAs hless
      (hrun.shown (SortedMultiMap.servedBy hless) (Queues.shown_empty Prod.fst less 0))
  · intro b q hrun
    exact SortedBag.answersAs hless (hrun.shown (SortedBag.servedBy hless) (Queues.shown_empty id less 0))

/-- Pairs are queued by their first parts. The oldest entry of a class has left
    the multimap; two are still there, and are read from both ends. -/
theorem multi_containers_are_queues_pairs :
    ∃ (m : SortedMultiMap (Nat × Nat) Char) (b : SortedBag (Nat × Nat)),
      m.entries = .ok [((1, 3), 'c'), ((1, 4), 'd'), ((2, 2), 'b')] ∧ (m.count (1, 0)).answer = .ok 2 ∧
      (∃ w, (m.getAll (1, 9)).answer = .ok w ∧
        ∃ w', w.follow [.right, .left, .left] = .ok ([some 'd', some 'c', none], w')) ∧
      b.items = .ok [(0, 5), (1, 7), (1, 6)] ∧ (b.count (1, 0)).answer = .ok 2 := by
  have hless : StrictWeak fun a b : Nat × Nat => decide (a.1 < b.1) := StrictWeak.decide_lt.comap Prod.fst
  obtain ⟨hmaps, hbags⟩ := multi_containers_are_queues (ν := Char) hless
  have hm := hmaps _ _ (.call (c := .removeOne (1, 8)) (r := .taken (some 'a')) (.call
    (c := .extend [((1, 1), 'a'), ((2, 2), 'b'), ((1, 3), 'c'), ((1, 4), 'd')]) (r := .done) .origin
    (by decide +kernel)) (by decide +kernel))
  have hb := hbags _ _ (.call (c := .extend [(1, 7), (0, 5), (1, 6)]) (r := .done) .origin (by decide +kernel))
  obtain ⟨w, hw, hfollow⟩ := hm.getAll (1, 9)
  exact ⟨_, _, rfl, hm.count _, ⟨w, hw, hfollow _⟩, rfl, hb.count _⟩

end RedBlack
