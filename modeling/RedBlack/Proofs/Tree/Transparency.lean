import RedBlack.Proofs.Tree.Budget

namespace RedBlack

/-- Two outcomes that cannot be told apart but by the states left. -/
structure Outcome.Same {σ τ κ ρ : Type} (o : Outcome σ κ ρ) (o' : Outcome τ κ ρ) : Prop where
  answer : o'.answer = o.answer
  asked : o'.asked = o.asked
  notes : o'.notes = o.notes

namespace Tree

open RedBlack.Action Store

variable {α κ ε ρ : Type} {key : α → κ} {R S : Store α → Store α → Prop} {a c l t u : Tree key} {b n m : Nat}

theorem Steps.same {op : Op key ρ} (h : Steps R S op) (hover : Over R t u) :
    (op.run t).Same (op.run u) ∧ Over S (op.run t).state (op.run u).state := by
  have hmatched := h t u hover
  obtain ⟨hanswer, hleft⟩ := Action.Matched.answer (R := fun _ _ x y => y = x) hmatched
  refine ⟨⟨?_, hmatched.asked.symm, hmatched.notes.symm⟩, hleft⟩
  cases ht : (op.run t).answer <;> cases hu : (op.run u).answer <;> rw [ht, hu] at hanswer
  · exact congrArg _ (Eq.symm hanswer)
  · exact hanswer.elim
  · exact hanswer.elim
  · exact congrArg _ hanswer

theorem Over.stores (h : Over R t u) : R t.store u.store := by
  obtain ⟨s, rfl, hs⟩ := h
  exact hs

theorem allocations_of_counted (h : Over (Counted n) a c) : c.store.allocations = n := by
  obtain ⟨base, m, _, _, hstore⟩ := h.stores
  rw [hstore]
  rfl

theorem allocations_of_budgeted (h : Over (Budgeted b n) c l) : c.store.allocations = n := by
  obtain ⟨base, m, _, hstore, _⟩ := h.stores
  rw [hstore]
  rfl

/-- One tree over an arena, over the same arena with its calls counted, and over
    that with a budget of `b` slots, of which `n` are used up. -/
structure Stacked (b n : Nat) (a c l : Tree key) : Prop where
  within : n ≤ b
  counted : Over (Counted n) a c
  budgeted : Over (Budgeted b n) c l

/-- Whether an answer is that there was no slot. -/
def denies : Except Fault (Response key ε) → Bool
  | .ok x => x.isRefusal
  | .error _ => false

/-- The budget is used up, and the request asks for one more slot: the others
    hand it out, and the tree with the budget alone refuses and is not changed.
    It goes on as if it had never been asked. -/
structure PartsAt (b : Nat) (r : Request α κ ε) (a c l : Tree key) : Prop where
  stacked : Stacked b b a c l
  handed : Over (Counted (b + 1)) (r.run.run a).state (r.run.run c).state
  denied : denies ((r.run.run l).answer : Except Fault (Response key ε)) = true
  unchanged : (r.run.run l).state = l
  alone : denies ((r.run.run a).answer : Except Fault (Response key ε)) = false

/-- How a request goes on three such trees: they answer alike and stay stacked,
    or they part. -/
inductive Goes (b n : Nat) (r : Request α κ ε) (a c l : Tree key) : Prop where
  | together {n' : Nat} : n ≤ n' → n' ≤ n + 1 →
    Stacked b n' (r.run.run a).state (r.run.run c).state (r.run.run l).state →
    (r.run.run a : Outcome _ _ (Response key ε)).Same (r.run.run c) →
    (r.run.run a : Outcome _ _ (Response key ε)).Same (r.run.run l) → Goes b n r a c l
  | apart : n = b → PartsAt b r a c l → (r.run.run a : Outcome _ _ (Response key ε)).Same (r.run.run c) →
    Goes b n r a c l

/-- Trees that stay stacked over the same number of slots on both sides. -/
theorem Stacked.of_over (hcounted : Over (Counted n) a c) (hbudgeted : Over (Budgeted b m) c l) (hle : m ≤ b) :
    Stacked b n a c l := by
  have hn := allocations_of_counted hcounted
  have hm := allocations_of_budgeted hbudgeted
  obtain rfl : n = m := by omega
  exact ⟨hle, hcounted, hbudgeted⟩

theorem Over.counted_or (h : Over (fun s s' => Counted n s s' ∨ Counted (n + 1) s s') a c) :
    ∃ n', n ≤ n' ∧ n' ≤ n + 1 ∧ Over (Counted n') a c := by
  obtain ⟨s, rfl, hs | hs⟩ := h
  · exact ⟨n, by omega, by omega, s, rfl, hs⟩
  · exact ⟨n + 1, by omega, by omega, s, rfl, hs⟩

theorem Over.budgeted_or (h : Over (fun s s' => Budgeted b n s s' ∨ Budgeted b (n + 1) s s') c l) (hlt : n < b) :
    ∃ m, m ≤ b ∧ Over (Budgeted b m) c l := by
  obtain ⟨s, rfl, hs | hs⟩ := h
  · exact ⟨n, by omega, s, rfl, hs⟩
  · exact ⟨n + 1, by omega, s, rfl, hs⟩

/-- Counting shows in no answer, and it goes on by one at most. -/
theorem counted_request (r : Request α κ ε) (h : Over (Counted n) a c) :
    (r.run.run a : Outcome _ _ (Response key ε)).Same (r.run.run c) ∧
      ∃ n', n ≤ n' ∧ n' ≤ n + 1 ∧ Over (Counted n') (r.run.run a).state (r.run.run c).state := by
  obtain ⟨hsame, hover⟩ := (steps_request (tied_counted n) ((tied_counted n).or (tied_counted (n + 1)))
    (fun _ _ => .inl) r fun _ => granting_counted n).same h
  exact ⟨hsame, hover.counted_or⟩

namespace Stacked

theorem request_plain {r : Request α κ ε} (h : Stacked b n a c l) (hr : ¬ r.Inserts) : Goes b n r a c l := by
  obtain ⟨hac, hac'⟩ := (steps_request (tied_counted n) (tied_counted n) (fun _ _ => id) r
    fun hins => absurd hins hr).same h.counted
  obtain ⟨hcl, hcl'⟩ := (steps_request (tied_budgeted b n) (tied_budgeted b n) (fun _ _ => id) r
    fun hins => absurd hins hr).same h.budgeted
  exact .together (Nat.le_refl n) (by omega) ⟨h.within, hac', hcl'⟩ hac
    ⟨hcl.answer.trans hac.answer, hcl.asked.trans hac.asked, hcl.notes.trans hac.notes⟩

/-- With some of the budget left every request goes alike on all three trees. -/
theorem request_within (r : Request α κ ε) (h : Stacked b n a c l) (hlt : n < b) : Goes b n r a c l := by
  obtain ⟨hac, n', hle, hle', hac'⟩ := counted_request r h.counted
  obtain ⟨hcl, hcl'⟩ := (steps_request (tied_budgeted b n) ((tied_budgeted b n).or (tied_budgeted b (n + 1)))
    (fun _ _ => .inl) r fun _ => granting_budgeted hlt).same h.budgeted
  obtain ⟨m, hm, hcl'⟩ := hcl'.budgeted_or hlt
  exact .together hle hle' (.of_over hac' hcl' hm) hac
    ⟨hcl.answer.trans hac.answer, hcl.asked.trans hac.asked, hcl.notes.trans hac.notes⟩

/-- Where the arena itself is full, the budget does not matter. -/
theorem command_full {r : Command α κ ε} (h : Stacked b n a c l) (hr : r.Inserts) (hfull : ¬ a.store.base.HasRoom) :
    Goes b n (.command r) a c l := by
  have hac : Over (fun s s' => Counted n s s' ∧ ¬ s.base.HasRoom) a c := by
    obtain ⟨s, hs, hstore⟩ := h.counted
    exact ⟨s, hs, hstore, hfull⟩
  have hcl : Over (fun s s' => Budgeted b n s s' ∧ ¬ s.base.HasRoom) c l := by
    have hbase := h.counted.view_eq (tied_counted n).base (fun t => t.store.base) fun _ => rfl
    obtain ⟨s, hs, hstore⟩ := h.budgeted
    exact ⟨s, hs, hstore, by rwa [hbase]⟩
  obtain ⟨hac, hac'⟩ := (steps_inserts (fun _ _ hs => (tied_counted n).base _ _ hs.1) (tied_counted n)
    (fun _ _ => And.left) (granting_counted_full n) hr).map Response.reply |>.same hac
  obtain ⟨hcl, hcl'⟩ := (steps_inserts (fun _ _ hs => (tied_budgeted b n).base _ _ hs.1) (tied_budgeted b n)
    (fun _ _ => And.left) (granting_budgeted_full b n) hr).map Response.reply |>.same hcl
  exact .together (Nat.le_refl n) (by omega) ⟨h.within, hac', hcl'⟩ hac
    ⟨hcl.answer.trans hac.answer, hcl.asked.trans hac.asked, hcl.notes.trans hac.notes⟩

/-- With the budget used up and room in the arena, a request that gets a slot
    from the others is refused by the tree with the budget. -/
theorem command_spent {r : Command α κ ε} (h : Stacked b b a c l) (hr : r.Inserts) (hroom : a.store.base.HasRoom) :
    Goes b b (.command r) a c l := by
  obtain ⟨hac, n', _, _, hac'⟩ := counted_request (.command r) h.counted
  have hover := h.budgeted
  have hQ : Steady fun s : Store α => s.allocations = b + 1 :=
    ⟨fun _ _ _ _ hs hrun => (allocations_construct hrun).trans hs,
      fun _ _ _ _ hs hrun => (allocations_deallocate hrun).trans hs⟩
  have hbase := h.counted.view_eq (tied_counted b).base (fun t => t.store.base) fun _ => rfl
  rw [← hbase] at hroom
  have hgets : ∃ slot s₁, c.store.allocate = .ok (.ok slot, s₁) ∧ s₁.allocations = b + 1 ∧
      l.store.allocate = .ok (.error .noSlot, l.store) := by
    obtain ⟨base, m, hsound, hsc, hsl⟩ := hover.stores
    rw [hsc] at hroom
    obtain ⟨slot, after, hrun, _⟩ | ⟨_, hfull⟩ := hsound.allocate
    · exact ⟨slot, counting (arena after) (b + 1) m, by simp [Store.allocate, hsc, hrun], rfl,
        by simp [Store.allocate, hsl]⟩
    · exact absurd hroom hfull
  obtain ⟨slot, s₁, hc, hs₁, hl⟩ := hgets
  have hdiverging : Diverging (fun s => s.allocations = b + 1) (fun x : Response key ε => x.isRefusal = true)
      (Request.command r).run c l :=
    .map (diverging_command hr hover (tied_budgeted b b).base hQ hc hs₁ hl)
  cases hdiverging with
  | alike hc' hl' hanswer hasked hnotes =>
    have hn := allocations_of_counted hac'
    rw [hc', allocations_of_counted h.counted] at hn
    subst hn
    refine .together (Nat.le_refl _) (by omega) ⟨h.within, hac', ?_⟩ hac
      ⟨hanswer.trans hac.answer, hasked.trans hac.asked, hnotes.trans hac.notes⟩
    rw [hc', hl']
    exact hover
  | refused hanswer hrefusal hl' hwp =>
    have hn := allocations_of_counted hac'
    rw [state_of_wp (wp_mono hwp (fun _ _ h => h.2) fun _ _ h => h)] at hn
    subst hn
    refine .apart rfl ⟨h, hac', by rw [hanswer]; exact hrefusal, hl', ?_⟩ hac
    rw [wp, hac.answer] at hwp
    cases ha : ((Request.command r).run.run a : Outcome _ _ (Response key ε)).answer with
    | error fault => rfl
    | ok y =>
      rw [ha] at hwp
      simpa [denies] using hwp.1

theorem request (r : Request α κ ε) (h : Stacked b n a c l) : Goes b n r a c l := by
  by_cases hlt : n < b
  · exact h.request_within r hlt
  · obtain rfl : n = b := by have hle := h.within; omega
    cases r with
    | inquiry q => exact h.request_plain id
    | command r =>
      by_cases hr : r.Inserts
      · by_cases hroom : a.store.base.HasRoom
        · exact h.command_spent hr hroom
        · exact h.command_full hr hroom
      · exact h.request_plain hr

end Stacked

/-- The requests of a run that are not refused for want of a slot. -/
def granted : List (Request α κ ε) → Tree key → List (Request α κ ε)
  | [], _ => []
  | r :: rest, t =>
    if denies ((r.run.run t).answer : Except Fault (Response key ε)) then granted rest (r.run.run t).state
    else r :: granted rest (r.run.run t).state

/-- A request refused for want of a slot leaves a tree whose store keeps no
    record as it is. -/
theorem state_of_denied {r : Request α κ ε} (h : denies ((r.run.run t).answer : Except Fault (Response key ε)) = true)
    (hrecord : t.store.keepsRecord = false) : ((r.run : Op key (Response key ε)).run t).state = t := by
  cases r with
  | inquiry q =>
    simp only [Request.run, run_map_eq] at h
    cases hanswer : ((Action.ask q.answer : Op key (Finding key ε)).run t).answer <;> rw [hanswer] at h <;> cases h
  | command c =>
    have hfailed := c.failedOnly t
    simp only [Request.run, run_map_eq, wp] at h hfailed ⊢
    cases hanswer : ((c.run : Op key (Reply α ε)).run t).answer with
    | error fault =>
      rw [hanswer] at h
      cases h
    | ok reply =>
      rw [hanswer] at h hfailed
      change reply.isRefusal = true at h
      rw [Reply.isRefusal] at h
      cases hfailure : reply.failure? with
      | none =>
        rw [hfailure] at h
        cases h
      | some failure =>
        have hdone := hfailed failure hfailure
        generalize ((c.run : Op key (Reply α ε)).run t).state = u, reply.calls = calls at hdone
        cases hdone with
        | refused hrun => rw [eq_of_refused hrun hrecord]
        | unbuilt _ _ _ _ =>
          rw [hfailure] at h
          cases h

/-- A run over a counting store says what the run over the arena says. -/
theorem counted_run (rs : List (Request α κ ε)) (h : Over (Counted n) a c) :
    (replies rs c : List (Except Fault (Response key ε))) = replies rs a ∧
      ∃ n', n ≤ n' ∧ Over (Counted n') (after rs a) (after rs c) := by
  induction rs generalizing n a c with
  | nil => exact ⟨rfl, n, Nat.le_refl n, h⟩
  | cons r rest ih =>
    obtain ⟨hsame, n₁, hle, _, hover⟩ := counted_request r h
    obtain ⟨hreplies, n', hle', hafter⟩ := ih hover
    exact ⟨by rw [replies, replies, hsame.answer, hreplies], n', by omega, hafter⟩

namespace Stacked

theorem run_within {rs : List (Request α κ ε)} (h : Stacked b n a c l) (hle : (after rs c).store.allocations ≤ b) :
    (replies rs l : List (Except Fault (Response key ε))) = replies rs a ∧
      Stacked b (after rs c).store.allocations (after rs a) (after rs c) (after rs l) := by
  induction rs generalizing n a c l with
  | nil =>
    rw [after, allocations_of_counted h.counted]
    exact ⟨rfl, h⟩
  | cons r rest ih =>
    cases h.request r with
    | together _ _ hstacked _ hsame =>
      obtain ⟨hreplies, hafter⟩ := ih hstacked hle
      exact ⟨by rw [replies, replies, hsame.answer, hreplies], hafter⟩
    | apart _ hparts _ =>
      obtain ⟨_, n', hmore, hafter⟩ := counted_run rest hparts.handed
      rw [after, allocations_of_counted hafter] at hle
      omega

/-- A run that exceeds the budget does so at one request, and agrees before. -/
theorem run_past {rs : List (Request α κ ε)} (h : Stacked b n a c l) (hlt : b < (after rs c).store.allocations) :
    ∃ before r rest, rs = before ++ r :: rest ∧
      (replies before l : List (Except Fault (Response key ε))) = replies before a ∧
      PartsAt b r (after before a) (after before c) (after before l) := by
  induction rs generalizing n a c l with
  | nil =>
    rw [after, allocations_of_counted h.counted] at hlt
    have hle := h.within
    omega
  | cons r rest ih =>
    cases h.request r with
    | together _ _ hstacked _ hsame =>
      obtain ⟨before, r', rest', rfl, hreplies, hparts⟩ := ih hstacked hlt
      exact ⟨r :: before, r', rest', rfl, by rw [replies, replies, hsame.answer, hreplies], hparts⟩
    | apart _ hparts _ => exact ⟨[], r, rest, rfl, rfl, hparts⟩

/-- Whatever it was refused, the tree with the budget is the tree over the arena
    after the requests granted. -/
theorem run_granted (rs : List (Request α κ ε)) (h : Stacked b n a c l) :
    (replies (granted rs l) a : List (Except Fault (Response key ε))) = (replies rs l).filter (!denies ·) ∧
      ∃ n', Stacked b n' (after (granted rs l) a) (after (granted rs l) c) (after rs l) := by
  induction rs generalizing n a c l with
  | nil => exact ⟨rfl, n, h⟩
  | cons r rest ih =>
    rw [granted, replies, after]
    by_cases hdenies : denies ((r.run.run l).answer : Except Fault (Response key ε)) = true
    · have hrecord : l.store.keepsRecord = false := by
        obtain ⟨base, m, _, _, hstore⟩ := h.budgeted.stores
        rw [hstore]
        rfl
      rw [if_pos hdenies, state_of_denied hdenies hrecord, List.filter_cons_of_neg (by simp [hdenies])]
      exact ih h
    · rw [if_neg hdenies, List.filter_cons_of_pos (by simpa using hdenies)]
      cases h.request r with
      | together _ _ hstacked _ hsame =>
        obtain ⟨hreplies, hafter⟩ := ih hstacked
        exact ⟨by rw [replies, hreplies, hsame.answer], hafter⟩
      | apart _ hparts _ => exact absurd hparts.denied hdenies

/-- The tree with the budget knows how much of it is used up. -/
theorem budgets_eq (h : Stacked b n a c l) : l.store.allocations = n ∧ l.store.budgets = [b - n] := by
  obtain ⟨base, m, _, _, hstore⟩ := h.budgeted.stores
  rw [hstore]
  exact ⟨rfl, rfl⟩

end Stacked

theorem stacked_empty (key : α → κ) (less : κ → κ → Bool) (tag : UInt64) (b : Nat) :
    Stacked b 0 (empty key less (.arena .empty) tag) (empty key less (.counting (.arena .empty) 0 0) tag)
      (empty key less (.limited (.counting (.arena .empty) 0 0) b) tag) where
  within := Nat.zero_le b
  counted := ⟨_, rfl, .empty, 0, Arena.sound_empty, rfl, rfl⟩
  budgeted := ⟨_, rfl, .empty, 0, Arena.sound_empty, rfl, rfl⟩

/-- What a run shows of the layers over an arena: of the count nothing, and of
    the budget that no more slots are handed out than it has. -/
structure Seamless (b : Nat) (rs : List (Request α κ ε)) (a c l : Tree key) : Prop where
  /-- The tree that counts answers like the tree over the arena, with the same
      slots, links and colours. -/
  counted : (replies rs c : List (Except Fault (Response key ε))) = replies rs a ∧
    Over (Counted (after rs c).store.allocations) (after rs a) (after rs c)
  /-- So does the tree with the budget, if the budget is enough. -/
  within : (after rs c).store.allocations ≤ b →
    (replies rs l : List (Except Fault (Response key ε))) = replies rs a ∧
      Stacked b (after rs c).store.allocations (after rs a) (after rs c) (after rs l)
  /-- If it is not, the tree agrees with the others up to the request for one
      slot too many. That one it alone refuses, and is not changed. -/
  past : b < (after rs c).store.allocations → ∃ before r rest, rs = before ++ r :: rest ∧
    (replies before l : List (Except Fault (Response key ε))) = replies before a ∧
    PartsAt b r (after before a) (after before c) (after before l)
  /-- In the long run it is the tree over the arena that was asked only for what
      was granted. -/
  replies_granted : (replies (granted rs l) a : List (Except Fault (Response key ε))) =
    (replies rs l).filter (!denies ·)
  stacked : Stacked b (after rs l).store.allocations (after (granted rs l) a) (after (granted rs l) c) (after rs l)
  /-- The next request goes in step, or is the one that asks for a slot when the
      budget is used up. -/
  next : ∀ r : Request α κ ε, Goes b (after rs l).store.allocations r (after (granted rs l) a)
    (after (granted rs l) c) (after rs l)
  /-- A request that takes no slot is answered like by the tree over the arena,
      also when the budget is used up. -/
  plain : ∀ r : Request α κ ε,
    (r.run.run (after (granted rs l) c)).state.store.allocations = (after (granted rs l) c).store.allocations →
    (r.run.run (after (granted rs l) a) : Outcome _ _ (Response key ε)).Same (r.run.run (after rs l))
  /-- What is left of the budget is what was not handed out, -/
  remaining : (after rs l).store.budgets = [b - (after rs l).store.allocations]
  /-- and whatever is released, it does not grow. -/
  spending : ∀ r : Request α κ ε,
    (after rs l).store.allocations ≤ (r.run.run (after rs l)).state.store.allocations

/-- Neither a count nor a budget shows, but for the refusals past the budget. -/
theorem layers_seamless (key : α → κ) (less : κ → κ → Bool) (tag : UInt64) (b : Nat) (rs : List (Request α κ ε)) :
    Seamless b rs (empty key less (.arena .empty) tag) (empty key less (.counting (.arena .empty) 0 0) tag)
      (empty key less (.limited (.counting (.arena .empty) 0 0) b) tag) := by
  have h := stacked_empty key less tag b
  obtain ⟨hreplies, n, _, hcounted⟩ := counted_run rs h.counted
  obtain ⟨hgranted, n', hstacked⟩ := h.run_granted rs
  obtain ⟨hn', hbudgets⟩ := hstacked.budgets_eq
  rw [← allocations_of_counted hcounted] at hcounted
  subst hn'
  refine ⟨⟨hreplies, hcounted⟩, h.run_within, h.run_past, hgranted, hstacked, fun r => hstacked.request r,
    fun r hr => ?_, hbudgets, fun r => ?_⟩
  · cases hstacked.request r with
    | together _ _ _ _ hsame => exact hsame
    | apart hn hparts _ =>
      rw [allocations_of_counted hparts.handed, allocations_of_counted hstacked.counted] at hr
      omega
  · cases hstacked.request r with
    | together hle _ hafter _ _ =>
      rw [hafter.budgets_eq.1]
      exact hle
    | apart _ hparts _ =>
      exact Nat.le_of_eq (by rw [hparts.unchanged])

end Tree

end RedBlack
