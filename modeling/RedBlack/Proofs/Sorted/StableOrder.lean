import RedBlack.Proofs.Sorted.Queues
import RedBlack.Proofs.Tree.StableOrder

namespace RedBlack

open RedBlack.Action RedBlack.Tree

variable {α κ ν ε σ : Type} {key : α → κ} {less : κ → κ → Bool} {t : Tree key}

/-- The operation fills a state with the items of a list, which it then shows
    sorted stably. It stops at the first item for which there is no slot. -/
structure FillsStably (less : κ → κ → Bool) (key : α → κ) (content : σ → Except Fault (List α)) (fill : Action σ κ Unit)
    (origin : σ) (xs : List α) : Prop where
  fits : xs.length ≤ Handle.maxSlots →
    (fill.run origin).answer = .ok () ∧ content (fill.run origin).state = .ok (stableSort less key xs)
  stops : Handle.maxSlots < xs.length → (fill.run origin).answer = .error .allocationFailed ∧
    content (fill.run origin).state = .ok (stableSort less key (xs.take Handle.maxSlots))

namespace Queues

variable {tree : σ → Tree key} {s : σ} {xs olds : List α} {q : Queues α κ}

theorem Shown.arranges (h : Shown tree less s (ofList less key xs)) : (tree s).Arranges xs .idle := by
  obtain ⟨rfl, entries, hrep, hlists⟩ := h
  exact ⟨entries, hrep, hlists⟩

/-- Items that are inserted one after the other are shown as the queues of their
    list, up to the first one that gets no slot; as many items as there are
    slots lie in the tree by then. -/
theorem Shown.fill (h : Shown tree less s (ofList less key olds)) (hless : StrictWeak less) {put : Tree key → σ → σ}
    (hput : ∀ t s, tree (put t s) = t) (xs : List α) :
    (xs.forM fun x => (Tree.enqueue x).within tree put).wp
      (fun _ n => Shown tree less n (ofList less key (olds ++ xs)))
      (fun fault n => fault = .allocationFailed ∧ Handle.maxSlots < (olds ++ xs).length ∧
        Shown tree less n (ofList less key ((olds ++ xs).take Handle.maxSlots))) s := by
  induction xs generalizing s olds with
  | nil =>
    rw [List.append_nil]
    exact h
  | cons x rest ih =>
    change ((Tree.enqueue x).within tree put >>= fun _ => rest.forM _).wp _ _ s
    rw [wp_bind]
    refine wp_mono (h.enqueue hless hput x) ?_ ?_
    · intro _ n hn
      rw [join_ofList] at hn
      have hrest := ih hn
      rw [List.append_assoc, List.singleton_append] at hrest
      exact hrest
    · rintro fault n ⟨hfault, hfull, hn⟩
      rw [hn.arranges.size (hn.1 ▸ hless)] at hfull
      rw [← hfull]
      refine ⟨hfault, ?_, ?_⟩
      · simp
      · rwa [List.take_left]

theorem fillsStably (hless : StrictWeak less) (put : Tree key → σ → σ) (hput : ∀ t s, tree (put t s) = t)
    (h : Shown tree less s Queues.empty) (xs : List α) :
    FillsStably less key (fun n => (tree n).items) (xs.forM fun x => (Tree.enqueue x).within tree put) s xs := by
  have hempty : Shown tree less s (ofList less key []) := h
  have hrun := hempty.fill hless hput xs
  rw [List.nil_append] at hrun
  unfold wp at hrun
  split at hrun
  · next hanswer =>
    have hitems := hrun.arranges.items (hrun.1 ▸ hless)
    have hle := hrun.arranges.length_le (hrun.1 ▸ hless)
    rw [hrun.1] at hitems
    exact ⟨fun _ => ⟨hanswer, hitems⟩, fun hlt => absurd hle (Nat.not_le_of_lt hlt)⟩
  · next fault hanswer =>
    obtain ⟨rfl, hlt, hshown⟩ := hrun
    have hitems := hshown.arranges.items (hshown.1 ▸ hless)
    rw [hshown.1] at hitems
    exact ⟨fun hle => absurd hle (Nat.not_le_of_lt hlt), fun _ => ⟨hanswer, hitems⟩⟩

end Queues

open Queues

theorem SortedBag.fillsStably {less : κ → κ → Bool} (hless : StrictWeak less) (xs : List κ) :
    FillsStably less id SortedBag.items (SortedBag.extend xs) (.empty less) xs :=
  have hempty : Shown SortedBag.tree less (.empty less) Queues.empty := shown_empty id less 0
  Queues.fillsStably hless (fun t _ => SortedBag.mk t) (fun _ _ => rfl) hempty xs

theorem SortedMultiMap.fillsStably (hless : StrictWeak less) (xs : List (κ × ν)) :
    FillsStably less Prod.fst SortedMultiMap.entries (SortedMultiMap.extend xs) (.empty less) xs :=
  have hempty : Shown SortedMultiMap.tree less (.empty less) Queues.empty := shown_empty Prod.fst less 0
  Queues.fillsStably hless (fun t _ => SortedMultiMap.mk t) (fun _ _ => rfl) hempty xs

/-- Insertion among equivalent items is stable. An item that gets a slot goes
    right behind all those that are not greater, and no other entry changes its
    slot or its place. So a tree lists the items inserted one after the other as
    a stable sort leaves them, and so does a bag or a multimap that is filled
    from a list. -/
theorem insertEqual_stable {f : Forest key}
    (hf : f.Reachable fun f (c : Forest.Command α κ ε) => c.OnLive f ∧ c.KeepsOrder f) (ht : t ∈ f.trees) :
    (∀ item slot store, t.store.allocate = .ok (.ok slot, store) → ∃ front back : List (Slot × α),
      t.listing = .ok (front ++ back) ∧ (∀ e ∈ front, t.less (key item) (key e.2) = false) ∧
      (∀ e ∈ back, t.less (key item) (key e.2) = true) ∧
      t.PutsAt (insertEqual item) .ok (front ++ back) front.length (slot, item)) ∧
    (∀ xs, ∃ olds answers, t.items = .ok olds ∧ t.InsertsStably olds xs answers) ∧
    ∀ less : κ → κ → Bool, StrictWeak less →
      (∀ store tag xs, store.Sound → ∃ answers, (empty key less store tag).InsertsStably [] xs answers ∧
        (store = .arena .empty → xs.length ≤ Handle.maxSlots → ∀ a ∈ answers, a.isOk = true)) ∧
      (∀ xs, FillsStably less id SortedBag.items (SortedBag.extend xs) (.empty less) xs) ∧
      ∀ xs : List (κ × ν),
        FillsStably less Prod.fst SortedMultiMap.entries (SortedMultiMap.extend xs) (.empty less) xs := by
  obtain ⟨entries, o, h, hless, hsorted⟩ := hf.represents_sorted ht
  refine ⟨?_, ?_, ?_⟩
  · intro item slot store halloc
    obtain ⟨front, back, rfl, hfront, hback, hputs⟩ := h.insertEqual_granted hless hsorted halloc
    exact ⟨front, back, h.listing, hfront, hback, hputs⟩
  · intro xs
    obtain ⟨answers, hinserts, _⟩ := (h.arranges hsorted).insertsStably hless xs
    exact ⟨entries.map Prod.snd, answers, h.items, hinserts⟩
  · intro less hless'
    refine ⟨?_, SortedBag.fillsStably hless', SortedMultiMap.fillsStably hless'⟩
    intro store tag xs hstore
    have hempty : (empty key less store tag).Represents [] _ := represents_empty hstore.holds_nil
    obtain ⟨answers, hinserts, _⟩ := (hempty.arranges List.Pairwise.nil).insertsStably hless' xs
    refine ⟨answers, hinserts, ?_⟩
    rintro rfl hfits
    have hidle : (empty key less (.arena .empty) tag).Represents [] _ := represents_empty Store.holds_empty
    obtain ⟨same, hsame, hall⟩ := (hidle.arranges List.Pairwise.nil).insertsStably hless' xs
    obtain rfl := Except.ok.inj (hsame.answer.symm.trans hinserts.answer)
    exact hall rfl (by simpa using hfits)

/-- Pairs in the order of their numbers. One more 1 goes behind the other one
    and in front of the 2. Of three items inserted with room for two the third
    is refused, and a multimap takes all three. -/
theorem insertEqual_stable_pairs :
    (∃ t : Tree (Prod.fst : Nat × Char → Nat), t.listing = .ok [(1, 0, 'b'), (0, 1, 'a'), (2, 2, 'c')] ∧
      t.PutsAt (insertEqual (1, 'd')) .ok [(1, 0, 'b'), (0, 1, 'a'), (2, 2, 'c')] 2 (3, 1, 'd')) ∧
    (∃ t : Tree (Prod.fst : Nat × Char → Nat),
      ((insertEach [(1, 'a'), (0, 'b'), (1, 'c')]).run t).state.items = .ok [(0, 'b'), (1, 'a')]) ∧
    ((SortedMultiMap.extend [(1, 'a'), (0, 'b'), (1, 'c')]).run
      (.empty fun a b : Nat => decide (a < b))).state.entries = .ok [(0, 'b'), (1, 'a'), (1, 'c')] := by
  have h₀ : Forest.Reachable (fun f (c : Forest.Command (Nat × Char) Nat Empty) => c.OnLive f ∧ c.KeepsOrder f)
    (.empty (Prod.fst : Nat × Char → Nat)) := .empty
  have h₁ := h₀.step (c := .plant (fun a b => decide (a < b)) (.arena .empty))
    ⟨Arena.sound_empty, StrictWeak.decide_lt⟩
  have h₂ := h₁.step (c := .onTree 0 (.insertEqual (1, 'a'))) ⟨⟨_, rfl, nofun⟩, trivial⟩
  have h₃ := h₂.step (c := .onTree 0 (.insertEqual (0, 'b'))) ⟨⟨_, rfl, nofun⟩, trivial⟩
  have h₄ := h₃.step (c := .onTree 0 (.insertEqual (2, 'c'))) ⟨⟨_, rfl, nofun⟩, trivial⟩
  obtain ⟨hone, _, hruns⟩ := insertEqual_stable (ν := Char) h₄ (Array.mem_of_getElem? (i := 0) rfl)
  obtain ⟨hempty, _, hmaps⟩ := hruns _ StrictWeak.decide_lt
  refine ⟨?_, ?_, ?_⟩
  · obtain ⟨front, back, hlisting, hfront, hback, hputs⟩ := hone (1, 'd') 3 _ rfl
    have hentries : front ++ back = [(1, 0, 'b'), (0, 1, 'a')] ++ [(2, 2, 'c')] :=
      Except.ok.inj (hlisting.symm.trans rfl)
    have hupTo : ∀ e ∈ front, decide (1 < e.2.1) = false := hfront
    have hbehind : ∀ e ∈ back, decide (1 < e.2.1) = true := hback
    obtain ⟨rfl, rfl⟩ := cut_unique_of (fun e : Slot × (Nat × Char) => !decide (1 < e.2.1)) hentries
      (fun e he => by rw [hupTo e he]; rfl) (fun e he => by rw [hbehind e he]; rfl) (by decide) (by decide)
    exact ⟨_, hlisting, hputs⟩
  · obtain ⟨answers, hinserts, _⟩ :=
      hempty (.limited (.arena .empty) 2) 0 [(1, 'a'), (0, 'b'), (1, 'c')] Arena.sound_empty
    obtain rfl : answers = [.ok ⟨some 0, 0⟩, .ok ⟨some 1, 0⟩, .error .noSlot] :=
      Except.ok.inj (hinserts.answer.symm.trans rfl)
    refine ⟨_, hinserts.items.trans (congrArg Except.ok ?_)⟩
    change stableSort (fun a b => decide (a < b)) Prod.fst [(1, 'a'), (0, 'b')] = _
    simp [stableSort, List.mergeSort, List.MergeSort.Internal.splitInTwo]
  · refine ((hmaps _).fits (by decide)).2.trans (congrArg Except.ok ?_)
    simp [stableSort, List.mergeSort, List.MergeSort.Internal.splitInTwo]

end RedBlack
