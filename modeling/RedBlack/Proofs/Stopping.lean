import RedBlack.Proofs.Tree.Ranges
import RedBlack.Proofs.Wired.Forest
import RedBlack.Proofs.Wired.Stepping

namespace RedBlack

namespace Action

variable {σ κ ρ : Type} {a : Action σ κ ρ} {done : ρ → σ → Prop} {s : σ}

theorem Yields.not_stopped (h : a.Yields s done) (fault : Fault) : (a.run s).answer ≠ .error fault := by
  obtain ⟨value, hanswer, _⟩ := h.answer
  rw [hanswer]
  nofun

theorem stopped_of_wp {left : Fault → σ → Prop} (h : a.wp (fun _ _ => False) left s) :
    ∃ fault, (a.run s).answer = .error fault ∧ left fault (a.run s).state := by
  unfold wp at h
  split at h
  · exact h.elim
  · next fault hanswer => exact ⟨fault, hanswer, h⟩

end Action

namespace Tree

open RedBlack.Action

variable {α κ : Type} {key : α → κ} {t : Tree key} {entries : List (Slot × α)} {o : Outside α}

/-- The first position is met strictly before the second one on the way to the
    end. -/
def Precedes (t : Tree key) (p q : Position) : Prop :=
  t.InOrder p q ∧ p ≠ q

/-- The operations that may stop, with the one case in which each of them does:
    to step over an end of the tree, to erase its end, or to erase a range that
    runs backwards. -/
structure StopsOnlyAtEnds (t : Tree key) : Prop where
  next : ∀ p fault, t.LiveOrEnd p → (t.next p = .error fault ↔ p = t.finish ∧ fault = .pastEnd)
  prev : ∀ p fault, t.LiveOrEnd p →
    (t.prev p = .error fault ↔ p = t.start ∧ fault = if t.isEmpty then .emptyEnd else .beforeFirst)
  erase : ∀ p fault, t.LiveOrEnd p →
    (((Tree.erase p).run t).answer = .error fault ↔ p = t.finish ∧ fault = .erasingEnd)
  remove : ∀ p fault, t.LiveOrEnd p →
    (((Tree.remove p).run t).answer = .error fault ↔ p = t.finish ∧ fault = .erasingEnd)
  eraseRange : ∀ first last fault, t.LiveOrEnd first → t.LiveOrEnd last →
    (((Tree.eraseRange first last).run t).answer = .error fault ↔ t.Precedes last first ∧ fault = .reversedRange)

/-- The operations that are always answered, whatever the comparator says, so
    that no check within the tree or its store ever fails in them. -/
structure AlwaysAnswers (t : Tree key) : Prop where
  get : ∀ p, t.LiveOrEnd p → ∃ item, t.get p = .ok item
  first : ∃ item, t.first? = .ok item
  last : ∃ item, t.last? = .ok item
  equalRange : ∀ k, ∃ range, (t.equalRange k).answer = .ok range
  walk : ∀ script, ∃ given, t.walk.follow script = .ok given
  /-- Any two positions make a range, and a range in order is walked over from
      both ends. -/
  walkRange : ∀ first last, t.LiveOrEnd first → t.LiveOrEnd last → ∃ w, t.walkRange first last = .ok w ∧
    (t.InOrder first last → ∀ script, ∃ given, w.follow script = .ok given)
  drain : ∀ script, ∃ given, ((Drain.follow script).run t.drain).answer = .ok given
  dispose : ∃ store, t.dispose = .ok store
  /-- Every legal request that takes no bounds for a range is answered: the
      insertions with their hints, the searches, the removals from the ends,
      `clear`. -/
  command : ∀ {ε : Type} (c : Command α κ ε), c.Legal t → ¬ c.NeedsOrder →
    ∃ reply, ((c.run : Op key (Reply α ε)).run t).answer = .ok reply

/-- The operations that are answered where the comparator orders: those that
    take the bounds of a key for a range. -/
structure AnswersInOrder (t : Tree key) : Prop where
  eraseKey : ∀ k, ∃ n, ((Tree.eraseKey k).run t).answer = .ok n
  count : ∀ k, ∃ n, (t.count k).answer = .ok n
  walkEqual : ∀ k, ∃ w, (t.walkEqual k).answer = .ok w ∧ ∀ script, ∃ given, w.follow script = .ok given

namespace Represents

variable {p first last : Position}

theorem predecessor_first {e : Slot × α} {after : List (Slot × α)} (h : t.Represents (e :: after) o) :
    t.predecessor (some e.1) = .error .beforeFirst := by
  have hslots : t.shape.slots = [] ++ e.1 :: after.map Prod.fst := by
    rw [h.slots]
    rfl
  have hneighbour := Shape.neighbour_left h.nodup hslots
  have hitem : t.itemAt e.1 = .ok e.2 := h.itemAt (by simp)
  simp [Tree.predecessor, beside, hneighbour, hitem]

theorem next_eq_error_iff (h : t.Represents entries o) (hp : t.LiveOrEnd p) (fault : Fault) :
    t.next p = .error fault ↔ p = t.finish ∧ fault = .pastEnd := by
  obtain ⟨before, after, rfl, rfl⟩ := h.exists_cut hp
  rw [Tree.next, own_position, ok_bind]
  cases after with
  | nil => simp [Tree.successor, finish, eq_comm]
  | cons e rest => simp [h.successor, finish, position]

theorem prev_eq_error_iff (h : t.Represents entries o) (hp : t.LiveOrEnd p) (fault : Fault) :
    t.prev p = .error fault ↔ p = t.start ∧ fault = if t.isEmpty then .emptyEnd else .beforeFirst := by
  obtain ⟨before, after, rfl, rfl⟩ := h.exists_cut hp
  rw [Tree.prev, own_position, ok_bind]
  cases before using List.reverseRecOn with
  | nil =>
    have hstart : t.position (after.head?.map Prod.fst) = t.start := by
      rw [start, h.leftmost]
      rfl
    rw [hstart]
    rw [List.nil_append] at h
    cases after with
    | nil => simp [Tree.predecessor, h.isEmpty, eq_comm]
    | cons e rest => simp [h.predecessor_first, h.isEmpty, eq_comm]
  | append_singleton init d =>
    have hstart : t.position (after.head?.map Prod.fst) ≠ t.start := by
      intro heq
      have hleft : t.leftmost = after.head?.map Prod.fst := (congrArg Position.slot heq).symm
      cases after with
      | nil =>
        rw [h.leftmost] at hleft
        simp at hleft
      | cons e rest =>
        have hnil := h.leftmost_eq_some_iff.mp hleft
        simp at hnil
    have hprev : t.predecessor (after.head?.map Prod.fst) = .ok d.1 := by
      cases after with
      | nil =>
        rw [List.append_nil] at h
        exact h.predecessor_end
      | cons e rest =>
        rw [List.append_assoc] at h
        exact h.predecessor
    simp [hstart, hprev]

theorem erase_eq_error_iff (h : t.Represents entries o) (hp : t.LiveOrEnd p) (fault : Fault) :
    ((Tree.erase p).run t).answer = .error fault ↔ p = t.finish ∧ fault = .erasingEnd := by
  obtain rfl | hlive := hp.finish_or_live
  · obtain ⟨fault', hstopped, rfl, _⟩ := stopped_of_wp h.keeps_erase_finish
    rw [hstopped]
    simp [eq_comm]
  · obtain ⟨htag, slot, hmem, hslot⟩ := id hlive
    obtain ⟨before, item, after, rfl⟩ := h.exists_entry hmem
    have hne : p ≠ t.finish := by
      rintro rfl
      exact not_live_finish hlive
    exact iff_of_false ((h.erase htag hslot).not_stopped fault) fun hboth => hne hboth.1

theorem remove_eq_error_iff (h : t.Represents entries o) (hp : t.LiveOrEnd p) (fault : Fault) :
    ((Tree.remove p).run t).answer = .error fault ↔ p = t.finish ∧ fault = .erasingEnd := by
  have hsame : ((Tree.remove p).run t).answer = ((Tree.erase p).run t).answer.map Prod.fst :=
    (run_map (Tree.erase p) Prod.fst).2
  rw [← h.erase_eq_error_iff hp fault, hsame]
  cases ((Tree.erase p).run t).answer with
  | ok answer => simp
  | error fault' => simp

theorem eraseRange_eq_error_iff (h : t.Represents entries o) (hfirst : t.LiveOrEnd first)
    (hlast : t.LiveOrEnd last) (fault : Fault) :
    ((Tree.eraseRange first last).run t).answer = .error fault ↔ t.Precedes last first ∧ fault = .reversedRange := by
  constructor
  · intro hstopped
    have hnot : ¬ t.InOrder first last := by
      intro hrange
      obtain ⟨before, between, after, rfl, htag, htag', hlower, hupper⟩ := h.range_of_inOrder hrange
      exact (h.eraseRange htag htag' hlower hupper).not_stopped fault hstopped
    obtain hrange | hrange := h.inOrder_total hlast hfirst
    · have hne : last ≠ first := by
        rintro rfl
        exact hnot hrange
      obtain ⟨fault', hfault, rfl, _⟩ := stopped_of_wp (h.eraseRange_reversed hrange hne)
      rw [hstopped] at hfault
      exact ⟨⟨hrange, hne⟩, Except.error.inj hfault⟩
    · exact absurd hrange hnot
  · rintro ⟨⟨hrange, hne⟩, rfl⟩
    obtain ⟨fault', hfault, rfl, _⟩ := stopped_of_wp (h.eraseRange_reversed hrange hne)
    exact hfault

theorem stopsOnlyAtEnds (h : t.Represents entries o) : t.StopsOnlyAtEnds where
  next _ fault hp := h.next_eq_error_iff hp fault
  prev _ fault hp := h.prev_eq_error_iff hp fault
  erase _ fault hp := h.erase_eq_error_iff hp fault
  remove _ fault hp := h.remove_eq_error_iff hp fault
  eraseRange _ _ fault hfirst hlast := h.eraseRange_eq_error_iff hfirst hlast fault

theorem alwaysAnswers (h : t.Represents entries o) : t.AlwaysAnswers where
  get p hp := by
    obtain ⟨before, after, rfl, rfl⟩ := h.exists_cut hp
    exact ⟨_, h.get⟩
  first := ⟨_, h.first?⟩
  last := ⟨_, h.last?⟩
  equalRange k := by
    obtain ⟨_, rest, _, hlower, _⟩ := h.lowerBound k
    obtain ⟨_, after, _, hupper, _⟩ := h.upperBound k
    refine ⟨(t.position (rest.head?.map Prod.fst), t.position (after.head?.map Prod.fst)), ?_⟩
    simp [Tree.equalRange, hlower, hupper]
  walk := h.walk.follow
  walkRange first last hfirst hlast := by
    have hrun : t.walkRange first last =
        .ok { tree := t, view := id, front := first.slot, back := last.slot, remaining := none } := by
      simp [Tree.walkRange, own, hfirst.1, hlast.1]
    refine ⟨_, hrun, ?_⟩
    intro hrange
    obtain ⟨w, before, between, after, hwalk, hcovers⟩ := h.walkRange hrange
    obtain rfl := Except.ok.inj (hrun.symm.trans hwalk)
    exact hcovers.follow
  drain script := by
    obtain ⟨given, hanswer, _⟩ := (Drain.follow_spec (d := t.drain) h script).answer
    exact ⟨given, hanswer⟩
  dispose := by
    obtain ⟨store, hrun, _⟩ := h.dispose
    exact ⟨store, hrun⟩
  command c hlegal horder := by
    obtain ⟨reply, hanswer, _⟩ := (h.command hlegal fun hneeds => absurd hneeds horder).answer
    exact ⟨reply, hanswer⟩

/-- The bounds of a key make a range wherever the comparator orders, also where
    the items lie in another order. -/
theorem answersInOrder (h : t.Represents entries o) (hless : StrictWeak t.less) : t.AnswersInOrder where
  eraseKey k := by
    obtain ⟨n, hanswer, _⟩ := (h.eraseKey hless k).answer
    exact ⟨n, hanswer⟩
  count k := by
    obtain ⟨_, between, _, _, hanswer, _⟩ := h.count hless k
    exact ⟨between.length, hanswer⟩
  walkEqual k := by
    obtain ⟨w, _, _, _, _, hanswer, hcovers, _⟩ := h.walkEqual hless k
    exact ⟨w, hanswer, hcovers.follow⟩

end Represents

end Tree

namespace Forest

open RedBlack.Action

variable {α κ ε : Type} {key : α → κ} {f : Forest key}

/-- Where all comparators order, every legal request to a collection is
    answered. -/
theorem Valid.answers {c : Command α κ ε} (h : f.Valid False) (horders : f.Orders) (hlegal : c.Legal f) :
    c.run.Yields f fun _ _ => True := by
  cases c with
  | plant less store => exact trivial
  | onTree i c =>
    obtain ⟨t, ht, hc⟩ := hlegal
    have hmem := Array.mem_of_getElem? ht
    obtain ⟨entries, o, hrep, _⟩ := h t hmem
    rw [Command.run, Yields, wp_bind, Forest.onTree, wp_bind, tree, wp_look]
    simp only [ht, wp_within]
    exact (hrep.command hc fun _ => horders t hmem).mono fun _ _ _ => trivial
  | swap i j =>
    obtain ⟨hi, hj⟩ := hlegal
    simp only [Command.run, Forest.swap, Yields, tree, put, wp_bind, wp_look, Array.getElem?_eq_getElem hi,
      Array.getElem?_eq_getElem hj, wp_step]
  | copy make i store =>
    obtain ⟨hi, hstore⟩ := hlegal
    obtain ⟨entries, o, hrep, _⟩ := h _ (Array.getElem_mem hi)
    obtain ⟨replica, hrun, _⟩ := hrep.copyWith make f.nextTag hstore.holds_nil
    simp only [Command.run, Forest.copyWith, Yields, tree, freshTag, wp_bind, wp_look,
      Array.getElem?_eq_getElem hi, wp_step, hrun, wp_notes, wp_pure]
    cases replica.result with
    | ok copy => exact trivial
    | error failure => exact trivial
  | setBudget i budget =>
    rw [Command.run, Yields, Forest.onTree, wp_bind, tree, wp_look]
    simp only [Array.getElem?_eq_getElem hlegal, wp_within]
    exact trivial

/-- Whatever live positions were asked for and whatever the comparators are, a
    tree stops in five cases only, each told apart by its fault. Over the links
    written for it, steps lead where they should, and every change to it is made
    without an assertion failing on the way. Where the comparators order, taking
    the bounds of a key for a range is safe as well, and so no run of legal
    requests ever stops. -/
theorem reachable_stops_only_at_ends (f : Forest key) :
    (f.Reachable (fun f (c : Command α κ ε) => c.OnLive f) →
      ∀ t ∈ f.trees, t.StopsOnlyAtEnds ∧ t.AlwaysAnswers ∧ t.HasSoundLinks ∧
        (∀ g : Wired α, g.Carries t → g.StepsAs t) ∧ ∀ c : Tree.Command α κ ε, t.RelinksTo (c.run.run t).state) ∧
    (f.Reachable (fun f (c : Command α κ ε) => c.OnLive f ∧ c.PlantsOrder) →
      (∀ t ∈ f.trees, t.AnswersInOrder) ∧
      ∀ c : Command α κ ε, c.Legal f → (c.run.run f).answer = .ok ()) := by
  constructor
  · intro hf t ht
    obtain ⟨entries, o, h⟩ := hf.represents_onLive ht
    exact ⟨h.stopsOnlyAtEnds, h.alwaysAnswers, (hf.linked t ht).sound h, fun g hg => hg.stepsAs h,
      h.relinkedBy_command⟩
  · intro hf
    have horders := hf.orders
    have hvalid : f.Valid False := hf.valid_onLive (fun _ _ hallowed => hallowed.1) fun _ _ _ hfalse => hfalse.elim
    constructor
    · intro t ht
      obtain ⟨entries, o, h, _⟩ := hvalid t ht
      exact h.answersInOrder (horders t ht)
    · intro c hlegal
      obtain ⟨_, hanswer, _⟩ := (hvalid.answers horders hlegal).answer
      exact hanswer

/-- In a tree of two items the steps over its ends stop, and so does erasing a
    range that runs backwards; the items with a key are counted and erased. -/
theorem reachable_stops_only_at_ends_two :
    ∃ (f : Forest (id : Nat → Nat)) (t : Tree (id : Nat → Nat)), t ∈ f.trees ∧ t.items = .ok [1, 3] ∧
      t.next t.finish = .error .pastEnd ∧ t.prev t.start = .error .beforeFirst ∧
      ((Tree.eraseRange t.finish t.start).run t).answer = .error .reversedRange ∧
      (∃ n, (t.count 3).answer = .ok n) ∧
      ((Command.onTree 0 (.eraseKey 3) : Command Nat Nat Empty).run.run f).answer = .ok () := by
  have h₀ : Reachable (fun f (c : Command Nat Nat Empty) => c.OnLive f ∧ c.PlantsOrder)
    (.empty (id : Nat → Nat)) := .empty
  have h₁ := h₀.step (c := .plant (fun a b => decide (a < b)) (.arena .empty))
    ⟨Arena.sound_empty, StrictWeak.decide_lt⟩
  have h₂ := h₁.step (c := .onTree 0 (.insertEqual 1)) ⟨⟨_, rfl, nofun⟩, trivial⟩
  have h₃ := h₂.step (c := .onTree 0 (.insertEqual 3)) ⟨⟨_, rfl, nofun⟩, trivial⟩
  obtain ⟨hends, _⟩ := (reachable_stops_only_at_ends _).1 (h₃.mono fun _ _ hallowed => hallowed.1) _
    (Array.mem_of_getElem? (i := 0) rfl)
  obtain ⟨hordered, hanswers⟩ := (reachable_stops_only_at_ends _).2 h₃
  have hcount := (hordered _ (Array.mem_of_getElem? (i := 0) rfl)).count 3
  have hprev := hends.prev ⟨some 0, 1⟩ .beforeFirst ⟨rfl, by rintro slot ⟨rfl⟩; decide +kernel⟩
  have hbackwards := (hends.eraseRange _ ⟨some 0, 1⟩ _ (Tree.liveOrEnd_finish _)
    ⟨rfl, by rintro slot ⟨rfl⟩; decide +kernel⟩).mpr
    ⟨⟨⟨rfl, rfl, [], [0, 1], [], rfl, rfl, rfl⟩, by decide⟩, rfl⟩
  exact ⟨_, _, Array.mem_of_getElem? (i := 0) rfl, rfl,
    (hends.next _ _ (Tree.liveOrEnd_finish _)).mpr ⟨rfl, rfl⟩, hprev.mpr ⟨rfl, rfl⟩, hbackwards,
    hcount, hanswers (.onTree 0 (.eraseKey 3)) ⟨_, rfl, trivial⟩⟩

end Forest

end RedBlack
