import RedBlack.Proofs.LivePositions
import RedBlack.Proofs.Shape.Height
import RedBlack.Proofs.Tree.Hints

namespace RedBlack

namespace Query

variable {κ ρ υ : Type} {q : Query κ ρ} {next : ρ → Query κ υ} {m n : Nat}

/-- A question that takes no more than `n` comparisons, if it is answered. -/
def AtMost (q : Query κ ρ) (n : Nat) : Prop :=
  q.asked.length ≤ n

/-- A question that is answered after no more than `n` comparisons. -/
def Within (q : Query κ ρ) (n : Nat) : Prop :=
  ∃ value, q.answer = .ok value ∧ q.asked.length ≤ n

theorem AtMost.within {value : ρ} (h : q.AtMost n) (hanswer : q.answer = .ok value) : q.Within n :=
  ⟨value, hanswer, h⟩

theorem AtMost.mono (h : q.AtMost m) (hle : m ≤ n) : q.AtMost n :=
  Nat.le_trans h hle

@[simp] theorem atMost_pure (value : ρ) : (pure value : Query κ ρ).AtMost n :=
  Nat.zero_le n

@[simp] theorem atMost_lift (x : Except Fault ρ) : (liftM x : Query κ ρ).AtMost n := by
  cases x with
  | ok value => exact Nat.zero_le n
  | error fault => exact Nat.zero_le n

theorem atMost_compare (less : κ → κ → Bool) (a b : κ) : (compare less a b).AtMost 1 :=
  Nat.le_refl 1

theorem AtMost.bind (h : q.AtMost m) (hnext : ∀ value, (next value).AtMost n) : (q >>= next).AtMost (m + n) := by
  rw [bind_eq]
  rcases q with fault | ⟨value, asked⟩
  · exact Nat.zero_le _
  · have hvalue := hnext value
    rw [Query.bind]
    generalize next value = rest at hvalue
    rcases rest with fault | ⟨result, more⟩
    · exact Nat.zero_le _
    · have hboth : (asked ++ more).length ≤ m + n := by
        rw [List.length_append]
        exact Nat.add_le_add h hvalue
      exact hboth

theorem AtMost.bind_pure (h : q.AtMost n) (f : ρ → υ) : (q >>= fun value => (pure (f value) : Query κ υ)).AtMost n :=
  h.bind (n := 0) fun value => atMost_pure (f value)

theorem atMost_lift_bind {x : Except Fault ρ} (hnext : ∀ value, (next value).AtMost n) :
    ((liftM x : Query κ ρ) >>= next).AtMost n := by
  simpa using (atMost_lift x : AtMost _ 0).bind hnext

@[simp] theorem atMost_lift_bind_pure (x : Except Fault ρ) (f : ρ → υ) :
    ((liftM x : Query κ ρ) >>= fun value => (pure (f value) : Query κ υ)).AtMost n :=
  (atMost_lift x).bind_pure f

@[simp] theorem atMost_ok_bind (value : ρ) :
    ((liftM (Except.ok value : Except Fault ρ) : Query κ ρ) >>= next).AtMost n ↔ (next value).AtMost n := by
  change (Query.bind (.ok (value, [])) next).AtMost n ↔ _
  rw [Query.bind]
  rcases next value with fault | ⟨result, more⟩
  · exact Iff.rfl
  · exact Iff.rfl

@[simp] theorem atMost_compare_bind (less : κ → κ → Bool) (a b : κ) {next : Bool → Query κ υ} :
    (compare less a b >>= next).AtMost (n + 1) ↔ (next (less a b)).AtMost n := by
  change (Query.bind (.ok (less a b, [(a, b)])) next).AtMost (n + 1) ↔ _
  rw [Query.bind]
  rcases next (less a b) with fault | ⟨result, more⟩
  · exact iff_of_true (Nat.zero_le _) (Nat.zero_le _)
  · exact Nat.succ_le_succ_iff

end Query

namespace Action

variable {σ κ ρ υ : Type} {a : Action σ κ ρ} {next : ρ → Action σ κ υ} {s : σ} {m n : Nat}

/-- An operation that takes no more than `n` comparisons. -/
def AtMost (a : Action σ κ ρ) (n : Nat) (s : σ) : Prop :=
  (a.run s).asked.length ≤ n

/-- An operation that is answered after no more than `n` comparisons. -/
def Within (a : Action σ κ ρ) (n : Nat) (s : σ) : Prop :=
  ∃ value, (a.run s).answer = .ok value ∧ (a.run s).asked.length ≤ n

theorem AtMost.within {done : ρ → σ → Prop} (h : a.AtMost n s) (hyields : a.Yields s done) : a.Within n s := by
  obtain ⟨value, hanswer, _⟩ := hyields.answer
  exact ⟨value, hanswer, h⟩

theorem atMost_pure (value : ρ) : (pure value : Action σ κ ρ).AtMost n s :=
  Nat.zero_le n

theorem atMost_look (view : σ → Except Fault ρ) : (look view : Action σ κ ρ).AtMost n s :=
  Nat.zero_le n

theorem atMost_step (change : σ → Except Fault (ρ × σ)) : (step change : Action σ κ ρ).AtMost n s := by
  unfold AtMost run step
  split <;> exact Nat.zero_le n

theorem atMost_ask {question : σ → Query κ ρ} (h : (question s).AtMost n) : (ask question).AtMost n s := by
  unfold AtMost run ask
  unfold Query.AtMost Query.asked at h
  split
  · next heq => simpa [heq] using h
  · exact Nat.zero_le n

theorem AtMost.bind (h : a.AtMost m s) (hnext : ∀ value u, (next value).AtMost n u) :
    (a >>= next).AtMost (m + n) s := by
  change (Action.bind a next s).asked.length ≤ m + n
  have hfirst : (a s).asked.length ≤ m := h
  cases hanswer : (a s).answer with
  | error fault =>
    simp only [Action.bind, hanswer]
    exact Nat.le_trans hfirst (Nat.le_add_right m n)
  | ok value =>
    simp only [Action.bind, hanswer, List.length_append]
    exact Nat.add_le_add hfirst (hnext value (a s).state)

/-- What is known of the state is looked up without comparing. -/
theorem atMost_look_bind {view : σ → Except Fault ρ} {value : ρ} (hview : view s = .ok value)
    (h : (next value).AtMost n s) : (look view >>= next).AtMost n s := by
  have hnext : (next value s).asked.length ≤ n := h
  change (Action.bind (look view) next s).asked.length ≤ n
  simpa [Action.bind, look, hview] using hnext

theorem AtMost.bind_silent (h : a.AtMost n s) (hnext : ∀ value u, (next value).AtMost 0 u) : (a >>= next).AtMost n s :=
  h.bind hnext

end Action

namespace Shape

open Query

/-- A walk down takes the comparisons of one turn at each node that it meets, so
    the height of the tree bounds them. -/
theorem descend_atMost {κ : Type} {turn : Slot → Query κ Side} (hturn : ∀ slot, (turn slot).AtMost 1) (t : Shape)
    (trail : Trail) : (t.descend turn trail).AtMost t.height := by
  induction t generalizing trail with
  | nil => exact atMost_pure trail
  | node color left slot right ihl ihr =>
    have hbelow : ((node color left slot right).descend turn trail).AtMost (1 + max left.height right.height) := by
      apply (hturn slot).bind
      intro side
      cases side with
      | left => exact (ihl _).mono (Nat.le_max_left _ _)
      | right => exact (ihr _).mono (Nat.le_max_right _ _)
    rwa [Nat.add_comm] at hbelow

end Shape

namespace Tree

variable {α κ : Type} {key : α → κ} {t : Tree key}

section Searches

open Query

variable (t : Tree key) (bound : Bound) (k : κ)

theorem turn_atMost (slot : Slot) : (t.turn bound k slot).AtMost 1 := by
  apply atMost_lift_bind
  intro stored
  cases bound with
  | lower => exact (atMost_compare _ _ _).bind_pure _
  | upper => exact (atMost_compare _ _ _).bind_pure _

theorem trail_atMost : (t.trail bound k).AtMost t.shape.height :=
  t.shape.descend_atMost (t.turn_atMost bound k) []

theorem bound_atMost : (t.bound bound k).AtMost t.shape.height :=
  (t.trail_atMost bound k).bind_pure _

theorem lowerBound_atMost : (t.lowerBound k).AtMost t.shape.height :=
  (t.bound_atMost .lower k).bind_pure _

theorem upperBound_atMost : (t.upperBound k).AtMost t.shape.height :=
  (t.bound_atMost .upper k).bind_pure _

theorem find_atMost : (t.find k).AtMost (t.shape.height + 1) := by
  apply (t.bound_atMost .lower k).bind
  intro found
  cases found with
  | none => exact atMost_pure _
  | some slot =>
    apply atMost_lift_bind
    intro stored
    rw [atMost_compare_bind]
    split <;> exact atMost_pure _

theorem uniquePlace_atMost : (t.uniquePlace k).AtMost (t.shape.height + 1) := by
  apply (t.trail_atMost .upper k).bind
  intro trail
  cases trail with
  | nil => exact atMost_pure _
  | cons step up =>
    obtain ⟨parent, side⟩ := step
    simp only
    split
    · exact atMost_pure _
    · have hask (before : Slot) : (do
          if ← Query.compare t.less (← t.keyAt before) k then return Vacancy.vacant (.under parent side)
          else return Vacancy.occupied before : Query κ Vacancy).AtMost 1 := by
        apply atMost_lift_bind
        intro stored
        rw [atMost_compare_bind]
        split <;> exact atMost_pure _
      cases side with
      | left => exact atMost_lift_bind hask
      | right => exact (atMost_pure (n := 0) parent).bind hask

theorem equalPlace_atMost : (t.equalPlace bound k).AtMost (t.shape.height + 1) := by
  apply (t.trail_atMost bound k).bind
  intro trail
  cases trail with
  | nil => exact atMost_pure _
  | cons step up => exact (t.turn_atMost bound k step.1).bind_pure _

end Searches

section Insertions

open RedBlack.Action

variable (item : α) {n : Nat}

theorem insertAt_atMost (place : Place) (t : Tree key) : (insertAt item place).AtMost 0 t := by
  apply (atMost_step _).bind_silent
  intro slot u
  cases slot with
  | error error => exact atMost_pure _
  | ok slot =>
    apply (atMost_step _).bind_silent
    intro _ v
    exact (atMost_step _).bind_silent fun _ _ => atMost_pure _

/-- Inserting compares as often as the search for the place does. -/
theorem insertUniqueBy_atMost {search : Tree key → κ → Query κ Vacancy} (h : (search t (key item)).AtMost n) :
    (insertUniqueBy search item).AtMost n t := by
  have hask : (ask fun u => search u (key item) : Op key Vacancy).AtMost n t := atMost_ask h
  apply hask.bind_silent
  intro found u
  cases found with
  | occupied slot => exact (atMost_look _).bind_silent fun _ _ => atMost_pure _
  | vacant place => exact (insertAt_atMost item place u).bind_silent fun _ _ => atMost_pure _

theorem insertEqualBy_atMost {search : Tree key → κ → Query κ Place} (h : (search t (key item)).AtMost n) :
    (insertEqualBy search item).AtMost n t := by
  have hask : (ask fun u => search u (key item) : Op key Place).AtMost n t := atMost_ask h
  exact hask.bind_silent (insertAt_atMost item)

end Insertions

section Hints

variable {before after entries : List (Slot × α)} {o : Outside α} {slot : Slot} {item : α} {k : κ}

/-- Two comparisons show that an item is equivalent to a key. -/
theorem Represents.hintedUniquePlace_equivalent (h : t.Represents entries o) (hmem : (slot, item) ∈ entries)
    (hbelow : t.less (key item) k = false) (habove : t.less k (key item) = false) :
    (t.hintedUniquePlace (some slot) k).AtMost 3 := by
  simp [Tree.hintedUniquePlace, h.keyAt hmem, hbelow, habove]

/-- In front of an item there is nothing, and the item is the first one, or
    there is another item to ask. -/
theorem Represents.neighbour_before (h : t.Represents (before ++ (slot, item) :: after) o) :
    (before = [] ∧ t.leftmost = some slot) ∨
      ∃ d ∈ before, t.leftmost ≠ some slot ∧ t.predecessor (some slot) = .ok d.1 ∧ t.keyAt d.1 = .ok (key d.2) := by
  cases before using List.reverseRecOn with
  | nil => exact .inl ⟨rfl, h.leftmost_eq_some_iff.mpr rfl⟩
  | append_singleton init d =>
    have hleft : t.leftmost ≠ some slot := by simp [h.leftmost_eq_some_iff]
    have hkey := h.keyAt (e := d) (by simp)
    have hsplit : init ++ [d] ++ (slot, item) :: after = init ++ d :: (slot, item) :: after := by simp
    rw [hsplit] at h
    exact .inr ⟨d, by simp, hleft, h.predecessor, hkey⟩

/-- Behind an item there is nothing, and the item is the last one, or there is
    another item to ask. -/
theorem Represents.neighbour_after (h : t.Represents (before ++ (slot, item) :: after) o) :
    (after = [] ∧ t.rightmost = some slot) ∨
      ∃ d ∈ after, t.rightmost ≠ some slot ∧ t.successor (some slot) = .ok (some d.1) ∧
        t.keyAt d.1 = .ok (key d.2) := by
  cases after with
  | nil => exact .inl ⟨rfl, h.rightmost_eq_some_iff.mpr rfl⟩
  | cons d rest =>
    have hright : t.rightmost ≠ some slot := by simp [h.rightmost_eq_some_iff]
    exact .inr ⟨d, List.mem_cons_self, hright, h.successor, h.keyAt (by simp)⟩

/-- At the end of a tree there is nothing, or there is a last item to ask. -/
theorem Represents.neighbour_end (h : t.Represents before o) :
    (before = [] ∧ t.shape = .nil) ∨
      ∃ d ∈ before, t.isEmpty = false ∧ t.rightmost = some d.1 ∧ t.keyAt d.1 = .ok (key d.2) := by
  cases before using List.reverseRecOn with
  | nil => exact .inl ⟨rfl, Shape.slots_eq_nil.mp h.slots⟩
  | append_singleton init d =>
    have hkey := h.keyAt (e := d) (by simp)
    exact .inr ⟨d, by simp, by simp [h.isEmpty], by simp [h.rightmost], hkey⟩

/-- Where the place for a key lies right before the hint, the item in front of
    that is asked at most, so that three comparisons are enough. -/
theorem Represents.hintedUniquePlace_after (h : t.Represents (before ++ after) o)
    (hbelow : ∀ e ∈ before, t.less (key e.2) k = true) (habove : ∀ e ∈ after, t.less k (key e.2) = true) :
    (t.hintedUniquePlace (after.head?.map Prod.fst) k).AtMost 3 := by
  cases after with
  | nil =>
    rw [List.append_nil] at h
    obtain ⟨rfl, hshape⟩ | ⟨d, hd, hfull, hright, hdkey⟩ := h.neighbour_end
    · have hplain := t.uniquePlace_atMost k
      rw [hshape] at hplain
      simpa [Tree.hintedUniquePlace, h.isEmpty] using hplain.mono (by decide)
    · simp [Tree.hintedUniquePlace, hfull, hright, dereference, hdkey, hbelow d hd]
  | cons e rest =>
    have hkey := h.keyAt (e := e) (by simp)
    have hfirst := habove e (by simp)
    obtain ⟨_, hleft⟩ | ⟨d, hd, hleft, hpred, hdkey⟩ := h.neighbour_before
    · simp [Tree.hintedUniquePlace, hkey, hfirst, hleft]
    · simp [Tree.hintedUniquePlace, hkey, hfirst, hleft, hpred, hdkey, hbelow d hd]

/-- Where the place for a key lies right after the hint, one of its neighbours
    is asked at most. -/
theorem Represents.hintedUniquePlace_before (h : t.Represents (before ++ (slot, item) :: after) o)
    (hbelow : ∀ e ∈ before ++ [(slot, item)], t.less (key e.2) k = true)
    (habove : ∀ e ∈ after, t.less k (key e.2) = true) : (t.hintedUniquePlace (some slot) k).AtMost 3 := by
  have hkey := h.keyAt (e := (slot, item)) (by simp)
  have hhint : t.less (key item) k = true := hbelow (slot, item) (by simp)
  cases hk : t.less k (key item) with
  | true =>
    obtain ⟨_, hleft⟩ | ⟨d, hd, hleft, hpred, hdkey⟩ := h.neighbour_before
    · simp [Tree.hintedUniquePlace, hkey, hk, hleft]
    · simp [Tree.hintedUniquePlace, hkey, hk, hleft, hpred, hdkey, hbelow d (List.mem_append_left _ hd)]
  | false =>
    obtain ⟨_, hright⟩ | ⟨d, hd, hright, hsucc, hdkey⟩ := h.neighbour_after
    · simp [Tree.hintedUniquePlace, hkey, hk, hhint, hright]
    · simp [Tree.hintedUniquePlace, hkey, hk, hhint, hright, hsucc, dereference, hdkey, habove d hd]

/-- Among equivalent keys, a place right before the hint is settled by both its
    neighbours. -/
theorem Represents.hintedEqualPlace_after (h : t.Represents (before ++ after) o)
    (hbelow : ∀ e ∈ before, t.less k (key e.2) = false) (habove : ∀ e ∈ after, t.less (key e.2) k = false) :
    (t.hintedEqualPlace (after.head?.map Prod.fst) k).AtMost 2 := by
  cases after with
  | nil =>
    rw [List.append_nil] at h
    obtain ⟨rfl, hshape⟩ | ⟨d, hd, hfull, hright, hdkey⟩ := h.neighbour_end
    · have hplain := t.equalPlace_atMost .upper k
      rw [hshape] at hplain
      simpa [Tree.hintedEqualPlace, h.isEmpty] using hplain.mono (by decide)
    · simp [Tree.hintedEqualPlace, hfull, hright, dereference, hdkey, hbelow d hd]
  | cons e rest =>
    have hkey := h.keyAt (e := e) (by simp)
    have hfirst := habove e (by simp)
    obtain ⟨_, hleft⟩ | ⟨d, hd, hleft, hpred, hdkey⟩ := h.neighbour_before
    · simp [Tree.hintedEqualPlace, hkey, hfirst, hleft]
    · simp [Tree.hintedEqualPlace, hkey, hfirst, hleft, hpred, hdkey, hbelow d hd]

/-- Among equivalent keys, a place right after the hint is settled by the hint
    and one neighbour of it. -/
theorem Represents.hintedEqualPlace_before (h : t.Represents (before ++ (slot, item) :: after) o)
    (hbelow : ∀ e ∈ before ++ [(slot, item)], t.less k (key e.2) = false)
    (habove : ∀ e ∈ after, t.less (key e.2) k = false) : (t.hintedEqualPlace (some slot) k).AtMost 2 := by
  have hkey := h.keyAt (e := (slot, item)) (by simp)
  cases hk : t.less (key item) k with
  | true =>
    obtain ⟨_, hright⟩ | ⟨d, hd, hright, hsucc, hdkey⟩ := h.neighbour_after
    · simp [Tree.hintedEqualPlace, hkey, hk, hright]
    · simp [Tree.hintedEqualPlace, hkey, hk, hright, hsucc, dereference, hdkey, habove d hd]
  | false =>
    obtain ⟨_, hleft⟩ | ⟨d, hd, hleft, hpred, hdkey⟩ := h.neighbour_before
    · simp [Tree.hintedEqualPlace, hkey, hk, hleft]
    · simp [Tree.hintedEqualPlace, hkey, hk, hleft, hpred, hdkey, hbelow d (List.mem_append_left _ hd)]

end Hints

/-- The place right before a position parts the items: the keys before it are of
    one kind, those from it on of another. A hint at such a place is right. -/
def PartedAt (t : Tree key) (p : Position) (below above : κ → Prop) : Prop :=
  p.tag = t.tag ∧ ∃ before after : List Slot, t.shape.slots = before ++ after ∧ p.slot = after.head? ∧
    (∀ slot ∈ before, ∀ k, t.keyAt slot = .ok k → below k) ∧ ∀ slot ∈ after, ∀ k, t.keyAt slot = .ok k → above k

/-- The height of a tree is logarithmic, and no search takes more comparisons
    than that, but for one more where an item has to be told from the key once
    the place is found. -/
structure SearchesInHeight (t : Tree key) : Prop where
  size : t.shape.size = t.size
  height : 2 ^ t.shape.height ≤ (t.size + 1) ^ 2
  lowerBound : ∀ k, (t.lowerBound k).Within t.shape.height
  upperBound : ∀ k, (t.upperBound k).Within t.shape.height
  find : ∀ k, (t.find k).Within (t.shape.height + 1)
  insertUnique : ∀ item, (Tree.insertUnique item).Within (t.shape.height + 1) t
  insertEqual : ∀ item, (Tree.insertEqual item).Within (t.shape.height + 1) t

/-- A useful hint stands in for the search, however many items there are. -/
structure HintsSpareSearch (t : Tree key) : Prop where
  /-- The hint is equivalent to the new key. -/
  equivalent : ∀ hint item, t.HoldsEquivalent (key item) hint → (Tree.insertUniqueHint hint item).Within 3 t
  /-- The hint is the item just after the only place for the new key, or the
      end. -/
  justAfter : ∀ hint item, t.PartedAt hint (t.less · (key item) = true) (t.less (key item) · = true) →
    (Tree.insertUniqueHint hint item).Within 3 t
  /-- The hint is the item just before that place. -/
  justBefore : ∀ hint next item, t.Live hint → t.next hint = .ok next →
    t.PartedAt next (t.less · (key item) = true) (t.less (key item) · = true) →
    (Tree.insertUniqueHint hint item).Within 3 t
  /-- The place just before the hint is a legal one among equivalent keys. -/
  legalBefore : ∀ hint item, t.PartedAt hint (t.less (key item) · = false) (t.less · (key item) = false) →
    (Tree.insertEqualHint hint item).Within 2 t
  /-- The place just after the hint is such a one. -/
  legalAfter : ∀ hint next item, t.Live hint → t.next hint = .ok next →
    t.PartedAt next (t.less (key item) · = false) (t.less · (key item) = false) →
    (Tree.insertEqualHint hint item).Within 2 t

section Reached

variable {entries : List (Slot × α)} {o : Outside α} {p hint : Position} {below above : κ → Prop}

theorem Represents.shape_size (h : t.Represents entries o) : t.shape.size = t.size := by
  rw [← Shape.length_slots, h.slots, List.length_map, h.size]

theorem Represents.searchesInHeight (h : t.Represents entries o) : t.SearchesInHeight where
  size := h.shape_size
  height := by
    rw [← h.shape_size]
    exact h.shape.two_pow_height_le
  lowerBound := by
    intro k
    obtain ⟨_, _, _, hanswer, _⟩ := h.lowerBound k
    exact (t.lowerBound_atMost k).within hanswer
  upperBound := by
    intro k
    obtain ⟨_, _, _, hanswer, _⟩ := h.upperBound k
    exact (t.upperBound_atMost k).within hanswer
  find := by
    intro k
    obtain ⟨_, _, _, hanswer, _⟩ := h.find k
    exact (t.find_atMost k).within hanswer
  insertUnique := by
    intro item
    exact (insertUniqueBy_atMost item (t.uniquePlace_atMost (key item))).within (h.insertUnique item)
  insertEqual := by
    intro item
    exact (insertEqualBy_atMost item (t.equalPlace_atMost .upper (key item))).within (h.insertEqual item)

theorem Represents.parts (h : t.Represents entries o) (hp : t.PartedAt p below above) :
    ∃ before after : List (Slot × α), entries = before ++ after ∧ p.slot = after.head?.map Prod.fst ∧
      (∀ e ∈ before, below (key e.2)) ∧ ∀ e ∈ after, above (key e.2) := by
  obtain ⟨_, front, back, hslots, hslot, hbelow, habove⟩ := hp
  rw [h.slots] at hslots
  obtain ⟨before, after, rfl, rfl, rfl⟩ := List.map_eq_append_iff.mp hslots
  refine ⟨before, after, rfl, by rw [hslot, List.head?_map], ?_, ?_⟩
  · intro e he
    exact hbelow e.1 (List.mem_map_of_mem he) _ (h.keyAt (List.mem_append_left _ he))
  · intro e he
    exact habove e.1 (List.mem_map_of_mem he) _ (h.keyAt (List.mem_append_right _ he))

theorem PartedAt.liveOrEnd (h : t.PartedAt p below above) : t.LiveOrEnd p := by
  obtain ⟨htag, front, back, hslots, hslot, _, _⟩ := h
  refine ⟨htag, ?_⟩
  intro slot heq
  rw [hslot] at heq
  rw [hslots]
  exact List.mem_append_right _ (List.mem_of_mem_head? heq)

/-- A place right after an item parts the entries behind the entry of that
    item. -/
theorem Represents.parts_next {next : Position} (h : t.Represents entries o) (hlive : t.Live hint)
    (hnext : t.next hint = .ok next) (hp : t.PartedAt next below above) :
    ∃ (before after : List (Slot × α)) (slot : Slot) (item : α), entries = before ++ (slot, item) :: after ∧
      hint.slot = some slot ∧ (∀ e ∈ before ++ [(slot, item)], below (key e.2)) ∧ ∀ e ∈ after, above (key e.2) := by
  obtain ⟨htag, slot, hmem, hslot⟩ := hlive
  obtain ⟨before, item, after, rfl⟩ := h.exists_entry hmem
  obtain ⟨front, back, hsplit, hhead, hbelow, habove⟩ := h.parts hp
  have hafter : t.next hint = .ok (t.position (after.head?.map Prod.fst)) := by
    simp [Tree.next, own, htag, hslot, h.successor]
  have hsame : after.head?.map Prod.fst = back.head?.map Prod.fst := by
    rw [← hhead, ← Except.ok.inj (hafter.symm.trans hnext)]
    rfl
  have hcons : before ++ (slot, item) :: after = (before ++ [(slot, item)]) ++ after := by simp
  rw [hcons] at h hsplit
  obtain ⟨rfl, rfl⟩ := h.cut_eq hsplit hsame
  exact ⟨before, after, slot, item, rfl, hslot, hbelow, habove⟩

theorem Represents.insertUniqueHint_within {n : Nat} {item : α} (h : t.Represents entries o)
    (hhint : t.LiveOrEnd hint) (hsearch : (t.hintedUniquePlace hint.slot (key item)).AtMost n) :
    (Tree.insertUniqueHint hint item).Within n t := by
  have hcost : (Tree.insertUniqueHint hint item).AtMost n t :=
    Action.atMost_look_bind (if_pos hhint.1) (insertUniqueBy_atMost item hsearch)
  exact hcost.within (h.insertUniqueHint item hhint)

theorem Represents.insertEqualHint_within {n : Nat} {item : α} (h : t.Represents entries o)
    (hhint : t.LiveOrEnd hint) (hsearch : (t.hintedEqualPlace hint.slot (key item)).AtMost n) :
    (Tree.insertEqualHint hint item).Within n t := by
  have hcost : (Tree.insertEqualHint hint item).AtMost n t :=
    Action.atMost_look_bind (if_pos hhint.1) (insertEqualBy_atMost item hsearch)
  exact hcost.within (h.insertEqualHint item hhint)

theorem Represents.hintsSpareSearch (h : t.Represents entries o) : t.HintsSpareSearch where
  equivalent := by
    intro hint item hequivalent
    obtain ⟨hlive, stored, hget, habove, hbelow⟩ := hequivalent
    obtain ⟨htag, slot, hmem, hslot⟩ := id hlive
    obtain ⟨before, other, after, rfl⟩ := h.exists_entry hmem
    have hentry : (slot, other) ∈ before ++ (slot, other) :: after := by simp
    have hitem : t.itemAt slot = .ok other := h.itemAt hentry
    obtain rfl : other = stored := by
      simpa [Tree.get, own, htag, hslot, hitem] using hget
    apply h.insertUniqueHint_within hlive.liveOrEnd
    rw [hslot]
    exact h.hintedUniquePlace_equivalent hentry hbelow habove
  justAfter := by
    intro hint item hparted
    obtain ⟨before, after, rfl, hslot, hbelow, habove⟩ := h.parts hparted
    apply h.insertUniqueHint_within hparted.liveOrEnd
    rw [hslot]
    exact h.hintedUniquePlace_after hbelow habove
  justBefore := by
    intro hint next item hlive hnext hparted
    obtain ⟨before, after, slot, other, rfl, hslot, hbelow, habove⟩ := h.parts_next hlive hnext hparted
    apply h.insertUniqueHint_within hlive.liveOrEnd
    rw [hslot]
    exact h.hintedUniquePlace_before hbelow habove
  legalBefore := by
    intro hint item hparted
    obtain ⟨before, after, rfl, hslot, hbelow, habove⟩ := h.parts hparted
    apply h.insertEqualHint_within hparted.liveOrEnd
    rw [hslot]
    exact h.hintedEqualPlace_after hbelow habove
  legalAfter := by
    intro hint next item hlive hnext hparted
    obtain ⟨before, after, slot, other, rfl, hslot, hbelow, habove⟩ := h.parts_next hlive hnext hparted
    apply h.insertEqualHint_within hlive.liveOrEnd
    rw [hslot]
    exact h.hintedEqualPlace_before hbelow habove

end Reached

/-- Every tree that comes about, whatever its comparator, has a height
    logarithmic in its size, and no search takes more than about one comparison
    for each level. Where a hint is useful, two or three comparisons are enough
    however high the tree is. -/
theorem reachable_searches_logarithmic {f : Forest key} {ε : Type}
    (hf : f.Reachable fun f (c : Forest.Command α κ ε) => c.OnLive f) (ht : t ∈ f.trees) :
    t.SearchesInHeight ∧ t.HintsSpareSearch := by
  obtain ⟨entries, o, h⟩ := hf.represents_onLive ht
  exact ⟨h.searchesInHeight, h.hintsSpareSearch⟩

/-- In a tree of three items a search compares three times at most, and so does
    an insertion right behind the hint. -/
theorem reachable_searches_logarithmic_three :
    ∃ (t : Tree (id : Nat → Nat)) (hint : Position), t.items = .ok [1, 3, 5] ∧ 2 ^ t.shape.height ≤ 4 ^ 2 ∧
      (t.find 5).Within 3 ∧ t.get hint = .ok (some 3) ∧ (Tree.insertUniqueHint hint 4).Within 3 t := by
  have h₀ : Forest.Reachable (fun f (c : Forest.Command Nat Nat Empty) => c.OnLive f) (.empty (id : Nat → Nat)) :=
    .empty
  have h₁ := h₀.step (c := .plant (fun a b => decide (a < b)) (.arena .empty)) Arena.sound_empty
  have h₂ := h₁.step (c := .onTree 0 (.insertEqual 1)) ⟨_, rfl, nofun⟩
  have h₃ := h₂.step (c := .onTree 0 (.insertEqual 3)) ⟨_, rfl, nofun⟩
  have h₄ := h₃.step (c := .onTree 0 (.insertEqual 5)) ⟨_, rfl, nofun⟩
  obtain ⟨hsearches, hhints⟩ := reachable_searches_logarithmic h₄ (Array.mem_of_getElem? (i := 0) rfl)
  have hinserted := hhints.justBefore ⟨some 1, 1⟩ ⟨some 2, 1⟩ 4 ⟨rfl, 1, by decide +kernel, rfl⟩ rfl
    ⟨rfl, [0, 1], [2], rfl, rfl, by
      intro slot hslot k hk
      obtain rfl | rfl : slot = 0 ∨ slot = 1 := by simpa using hslot
      · cases hk
        rfl
      · cases hk
        rfl, by
      intro slot hslot k hk
      obtain rfl : slot = 2 := by simpa using hslot
      cases hk
      rfl⟩
  exact ⟨_, _, rfl, hsearches.height, hsearches.find 5, rfl, hinserted⟩

end Tree

end RedBlack
