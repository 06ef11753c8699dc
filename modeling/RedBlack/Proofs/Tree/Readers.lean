import RedBlack.Proofs.Tree.Indices

namespace RedBlack

variable {α κ : Type} {key : α → κ}

/-- A walk under way, with the items that it gave at its front and at its back,
    the latest ones last. -/
structure Reader {α κ : Type} (key : α → κ) where
  walk : Walk key α
  fronts : List α := []
  backs : List α := []

/-- What one of several readers may be asked for. A reader is named by its
    index; one that is not there is passed over. -/
inductive Reader.Call where
  /-- The next item on a side. -/
  | advance (i : Nat) (side : Side)
  /-- Bounds on how many items are left. -/
  | bounds (i : Nat)
  /-- A copy, which goes on from where the reader is. -/
  | clone (i : Nat)

namespace Reader

/-- Gives the next item on a side and keeps a record of it. -/
def advance (side : Side) (r : Reader key) : Except Fault (Reader key) := do
  let (item, walk) ← r.walk.advance side
  match side with
  | .left => return { r with walk, fronts := r.fronts ++ item.toList }
  | .right => return { r with walk, backs := r.backs ++ item.toList }

/-- The readers after a call. -/
def Call.run : Call → List (Reader key) → Except Fault (List (Reader key))
  | advance i side, readers =>
    match readers[i]? with
    | none => return readers
    | some r => return readers.set i (← r.advance side)
  | bounds _, readers => return readers
  | clone i, readers =>
    match readers[i]? with
    | none => return readers
    | some r => return readers ++ [r]

/-- The readers after a number of calls. -/
def session : List Call → List (Reader key) → Except Fault (List (Reader key))
  | [], readers => return readers
  | call :: calls, readers => do session calls (← call.run readers)

/-- How a reader stands to the items of its range, if `left` are left. What it
    gives next is at the ends of these, and once there are none it gives nothing
    and stays as it is. -/
structure Leaves (r : Reader key) (items left : List α) : Prop where
  parts : items = r.fronts ++ left ++ r.backs.reverse
  front : ∃ w, r.walk.advance .left = .ok (left.head?, w)
  back : ∃ w, r.walk.advance .right = .ok (left.getLast?, w)
  exhausted : left = [] → ∀ side, r.walk.advance side = .ok (none, r.walk)

/-- The range of a reader is made up of the entries that it gave in front, those
    left, and those that it gave from behind. This holds of every copy, whatever
    it is asked for. -/
structure Reads (r : Reader key) (before range after : List (Slot × α)) (o : Outside α) (counts : Bool) : Prop where
  parts : ∃ front left back : List (Slot × α), range = front ++ left ++ back ∧
    r.walk.Covers (before ++ front) left (back ++ after) o ∧ r.fronts = front.map Prod.snd ∧
    r.backs.reverse = back.map Prod.snd
  view : r.walk.view = id
  counts : r.walk.remaining.isSome = counts

variable {r : Reader key} {readers : List (Reader key)} {before range after : List (Slot × α)} {o : Outside α}
  {counts : Bool} {w : Walk key α}

/-- A reader that gave nothing yet has all of its range left. -/
theorem Reads.of_covers (h : w.Covers before range after o) (hview : w.view = id) :
    ({ walk := w } : Reader key).Reads before range after o w.remaining.isSome :=
  ⟨⟨[], range, [], by simp, by simpa using h, rfl, rfl⟩, hview, rfl⟩

/-- A reader gives the outermost entry left on the side where it is asked. -/
theorem Reads.advance (h : r.Reads before range after o counts) (side : Side) :
    ∃ r', r.advance side = .ok r' ∧ r'.Reads before range after o counts := by
  obtain ⟨⟨front, left, back, rfl, hcovers, hfronts, hbacks⟩, hview, hcounts⟩ := h
  cases side with
  | left =>
    cases left with
    | nil =>
      refine ⟨r, ?_, ⟨front, [], back, rfl, hcovers, hfronts, hbacks⟩, hview, hcounts⟩
      simp [Reader.advance, hcovers.advance_nil]
    | cons e rest =>
      obtain ⟨w, hrun, hw, hsame, _, hsome⟩ := hcovers.forward
      refine ⟨{ r with walk := w, fronts := r.fronts ++ [e.2] }, ?_,
        ⟨front ++ [e], rest, back, by simp, by simpa using hw, by simp [hfronts], hbacks⟩, hsame.trans hview,
        hsome.trans hcounts⟩
      simp [Reader.advance, Walk.advance, hrun, hview]
  | right =>
    cases left using List.reverseRecOn with
    | nil =>
      refine ⟨r, ?_, ⟨front, [], back, rfl, hcovers, hfronts, hbacks⟩, hview, hcounts⟩
      simp [Reader.advance, hcovers.advance_nil]
    | append_singleton rest e =>
      obtain ⟨w, hrun, hw, hsame, _, hsome⟩ := hcovers.backward
      refine ⟨{ r with walk := w, backs := r.backs ++ [e.2] }, ?_,
        ⟨front, rest, e :: back, by simp, hw, hfronts, by simp [hbacks]⟩, hsame.trans hview, hsome.trans hcounts⟩
      simp [Reader.advance, Walk.advance, hrun, hview]

theorem Call.run_reads (call : Call) (h : ∀ r ∈ readers, r.Reads before range after o counts) :
    ∃ readers', call.run readers = .ok readers' ∧ ∀ r ∈ readers', r.Reads before range after o counts := by
  cases call with
  | advance i side =>
    cases hr : readers[i]? with
    | none => exact ⟨readers, by simp [Call.run, hr], h⟩
    | some r =>
      obtain ⟨r', hrun, hreads⟩ := (h r (List.mem_of_getElem? hr)).advance side
      refine ⟨readers.set i r', by simp [Call.run, hr, hrun], ?_⟩
      intro q hq
      obtain hq | rfl := List.mem_or_eq_of_mem_set hq
      · exact h q hq
      · exact hreads
  | bounds i => exact ⟨readers, rfl, h⟩
  | clone i =>
    cases hr : readers[i]? with
    | none => exact ⟨readers, by simp [Call.run, hr], h⟩
    | some r =>
      refine ⟨readers ++ [r], by simp [Call.run, hr], ?_⟩
      intro q hq
      obtain hq | hq := List.mem_append.mp hq
      · exact h q hq
      · obtain rfl := List.mem_singleton.mp hq
        exact h q (List.mem_of_getElem? hr)

theorem session_reads (calls : List Call) (h : ∀ r ∈ readers, r.Reads before range after o counts) :
    ∃ readers', session calls readers = .ok readers' ∧ ∀ r ∈ readers', r.Reads before range after o counts := by
  induction calls generalizing readers with
  | nil => exact ⟨readers, rfl, h⟩
  | cons call calls ih =>
    obtain ⟨readers₁, hrun, h₁⟩ := call.run_reads h
    obtain ⟨readers₂, hrest, h₂⟩ := ih h₁
    exact ⟨readers₂, by rw [session, hrun, ok_bind, hrest], h₂⟩

theorem Reads.leaves (h : r.Reads before range after o counts) :
    ∃ left, r.Leaves (range.map Prod.snd) left ∧
      (counts = true → r.walk.bounds = (left.length, left.length)) ∧
      (counts = false → r.walk.bounds.1 ≤ left.length ∧ left.length ≤ r.walk.bounds.2 ∧
        (r.walk.bounds.1 = 0 → left = [])) := by
  obtain ⟨⟨front, left, back, rfl, hcovers, hfronts, hbacks⟩, hview, hcounts⟩ := h
  refine ⟨left.map Prod.snd, ⟨?_, ?_, ?_, ?_⟩, ?_, ?_⟩
  · rw [hfronts, hbacks, List.map_append, List.map_append]
  · cases left with
    | nil => exact ⟨_, hcovers.advance_nil .left⟩
    | cons e rest =>
      obtain ⟨w, hrun, _⟩ := hcovers.forward
      rw [hview] at hrun
      exact ⟨w, hrun⟩
  · cases left using List.reverseRecOn with
    | nil => exact ⟨_, hcovers.advance_nil .right⟩
    | append_singleton rest e =>
      obtain ⟨w, hrun, _⟩ := hcovers.backward
      rw [hview] at hrun
      exact ⟨w, by simpa [Walk.advance] using hrun⟩
  · intro hnil side
    obtain rfl := List.map_eq_nil_iff.mp hnil
    exact hcovers.advance_nil side
  · intro hcounted
    rw [List.length_map]
    exact hcovers.bounds_counted (hcounts.trans hcounted)
  · intro huncounted
    rw [List.length_map, List.map_eq_nil_iff]
    exact hcovers.bounds_uncounted (hcounts.trans huncounted)

/-- Whatever is asked of a walk and its copies, each of them reads the range. -/
theorem session_leaves (h : w.Covers before range after o) (hview : w.view = id) (calls : List Call) :
    ∃ readers, session calls [{ walk := w }] = .ok readers ∧
      ∀ r ∈ readers, ∃ left, r.Leaves (range.map Prod.snd) left ∧
        (w.remaining.isSome = true → r.walk.bounds = (left.length, left.length)) ∧
        (w.remaining.isSome = false → r.walk.bounds.1 ≤ left.length ∧ left.length ≤ r.walk.bounds.2 ∧
          (r.walk.bounds.1 = 0 → left = [])) := by
  have hstart : ∀ r ∈ [({ walk := w } : Reader key)], r.Reads before range after o w.remaining.isSome := by
    intro r hr
    obtain rfl := List.mem_singleton.mp hr
    exact .of_covers h hview
  obtain ⟨readers, hrun, hreads⟩ := session_reads calls hstart
  exact ⟨readers, hrun, fun r hr => (hreads r hr).leaves⟩

end Reader

namespace Tree

variable {ε : Type} {t : Tree key}

/-- Whatever is asked of a walk over all items and its copies, in whatever order
    and at whichever ends, each of them gives the items in their order from the
    front and in the opposite order from the back, every item once, and nothing
    more when they are used up, and it always says how many are left. So does a
    walk over a range with the items of that, save that it only gives bounds on
    how many are left, and says that there may be none only when there are
    none. -/
theorem walks_read_from_both_ends {f : Forest key} (hf : f.Reachable fun f (c : Forest.Command α κ ε) => c.OnLive f)
    (ht : t ∈ f.trees) :
    ∃ items, t.items = .ok items ∧
      (∀ calls, ∃ readers, Reader.session calls [{ walk := t.walk }] = .ok readers ∧
        ∀ r ∈ readers, ∃ left, r.Leaves items left ∧ r.walk.bounds = (left.length, left.length)) ∧
      ∀ first last, t.InOrder first last →
        ∃ i j w, i ≤ j ∧ j ≤ items.length ∧ first = t.nth i ∧ last = t.nth j ∧ t.walkRange first last = .ok w ∧
          ∀ calls, ∃ readers, Reader.session calls [{ walk := w }] = .ok readers ∧
            ∀ r ∈ readers, ∃ left, r.Leaves ((items.take j).drop i) left ∧ r.walk.bounds.1 ≤ left.length ∧
              left.length ≤ r.walk.bounds.2 ∧ (r.walk.bounds.1 = 0 → left = []) := by
  obtain ⟨entries, o, h⟩ := hf.represents_onLive ht
  refine ⟨entries.map Prod.snd, h.items, ?_, ?_⟩
  · intro calls
    obtain ⟨readers, hrun, hleaves⟩ := Reader.session_leaves h.walk rfl calls
    refine ⟨readers, hrun, ?_⟩
    intro r hr
    obtain ⟨left, hleft, hcounted, _⟩ := hleaves r hr
    exact ⟨left, hleft, hcounted rfl⟩
  · intro first last hrange
    obtain ⟨i, hi, rfl⟩ := h.liveOrEnd_iff.mp hrange.liveOrEnd.1
    obtain ⟨j, hj, rfl⟩ := h.liveOrEnd_iff.mp hrange.liveOrEnd.2
    have hij := (h.inOrder_iff hi hj).mp hrange
    obtain ⟨before, between, after, rfl, rfl, rfl⟩ := exists_segment hij hj
    have hsplit : t.Represents (before ++ (between ++ after)) o := by rwa [← List.append_assoc]
    obtain ⟨w, hrun, hcovers, hview, hnone⟩ := h.walkRange_cut
    rw [← hsplit.nth_length, ← h.nth_length] at hrun
    refine ⟨_, _, w, hij, by simp, rfl, rfl, hrun, ?_⟩
    intro calls
    obtain ⟨readers, hsession, hleaves⟩ := Reader.session_leaves hcovers hview calls
    refine ⟨readers, hsession, ?_⟩
    intro r hr
    obtain ⟨left, hleft, _, huncounted⟩ := hleaves r hr
    refine ⟨left, ?_, huncounted (by rw [hnone]; rfl)⟩
    rwa [← List.map_take, ← List.map_drop, List.take_left, List.drop_left]

/-- A walk over 1, 2 and 3 gives 1 and is copied. The copy gives 3 from behind;
    the walk itself gives 2, then 3 from behind, and then nothing more. A walk
    from 2 up to the end says that one or more are left. -/
theorem walks_read_from_both_ends_three :
    ∃ t : Tree (id : Nat → Nat), t.items = .ok [1, 2, 3] ∧
      (∃ readers, Reader.session [.advance 0 .left, .clone 0, .advance 1 .right, .advance 0 .left, .bounds 0,
          .advance 0 .right, .advance 0 .left] [{ walk := t.walk }] = .ok readers ∧
        readers.map (fun r => (r.fronts, r.backs, r.walk.bounds)) = [([1, 2], [3], (0, 0)), ([1], [3], (1, 1))] ∧
        ∀ r ∈ readers, ∃ left, r.Leaves [1, 2, 3] left ∧ r.walk.bounds = (left.length, left.length)) ∧
      ∃ i j w, i ≤ j ∧ t.nth 1 = t.nth i ∧ t.finish = t.nth j ∧ t.walkRange (t.nth 1) t.finish = .ok w ∧
        w.bounds = (1, 3) := by
  have h₀ : Forest.Reachable (fun f (c : Forest.Command Nat Nat Empty) => c.OnLive f) (.empty (id : Nat → Nat)) :=
    .empty
  have h₁ := h₀.step (c := .plant (fun a b => decide (a < b)) (.arena .empty)) Arena.sound_empty
  have h₂ := h₁.step (c := .onTree 0 (.insertEqual 2)) ⟨_, rfl, nofun⟩
  have h₃ := h₂.step (c := .onTree 0 (.insertEqual 1)) ⟨_, rfl, nofun⟩
  have h₄ := h₃.step (c := .onTree 0 (.insertEqual 3)) ⟨_, rfl, nofun⟩
  obtain ⟨items, hitems, hall, hranges⟩ := walks_read_from_both_ends h₄ (Array.mem_of_getElem? (i := 0) rfl)
  obtain rfl : items = [1, 2, 3] := Except.ok.inj (hitems.symm.trans rfl)
  obtain ⟨readers, hrun, hleaves⟩ := hall [.advance 0 .left, .clone 0, .advance 1 .right, .advance 0 .left, .bounds 0,
    .advance 0 .right, .advance 0 .left]
  obtain ⟨i, j, w, hij, _, hfirst, hlast, hwalk, _⟩ :=
    hranges ⟨some 0, 1⟩ ⟨none, 1⟩ ⟨rfl, rfl, [1], [0, 2], [], rfl, rfl, rfl⟩
  refine ⟨_, hitems, ⟨readers, hrun, ?_, hleaves⟩, i, j, w, hij, hfirst, hlast, hwalk, ?_⟩
  · obtain rfl := Except.ok.inj (hrun.symm.trans rfl)
    rfl
  · obtain rfl := Except.ok.inj (hwalk.symm.trans rfl)
    rfl

end Tree

end RedBlack
