import RedBlack.Proofs.Store.Supply
import RedBlack.Proofs.Tree.Failures
import RedBlack.Proofs.Tree.Layered

namespace RedBlack

namespace Arena

variable {α : Type} {a b : Arena α} {slot : Slot} {item : α} {content : Option α}

theorem Sound.constructed (ha : a.Sound) (hrun : a.construct slot item = .ok b) : b.Sound := by
  obtain ⟨supply, hsupply⟩ := ha.exists_supply
  obtain ⟨_, hrun', hb, _⟩ := ha.construct (hsupply.construct hrun).1 item
  cases hrun.symm.trans hrun'
  exact hb

theorem Sound.deallocated (ha : a.Sound) (hrun : a.deallocate slot = .ok (content, b)) : b.Sound := by
  obtain ⟨_, hrun', hb, _⟩ := ha.deallocate (deallocate_eq_ok hrun).1
  cases hrun.symm.trans hrun'
  exact hb

end Arena

namespace Store

variable {α : Type} {R S : Store α → Store α → Prop} {b n : Nat} {s t : Store α}

/-- How many slots the uppermost layer that counts saw handed out. -/
def allocations : Store α → Nat
  | arena _ => 0
  | counting _ allocations _ => allocations
  | limited below _ => below.allocations
  | recorded below _ => below.allocations

/-- An arena, and the same one with its calls counted: it handed out `n`
    slots. -/
def Counted (n : Nat) (s t : Store α) : Prop :=
  ∃ base m, base.Sound ∧ s = arena base ∧ t = counting (arena base) n m

/-- An arena that counts its calls, and the same one with what `n` slots have
    left of a budget. -/
def Budgeted (b n : Nat) (s t : Store α) : Prop :=
  ∃ base m, base.Sound ∧ s = counting (arena base) n m ∧ t = limited (counting (arena base) n m) (b - n)

theorem allocations_construct {slot : Slot} {item : α} (h : Store.construct slot item s = .ok t) :
    t.allocations = s.allocations := by
  induction s generalizing t with
  | arena base =>
    simp only [Store.construct, bind_eq_ok, except_pure] at h
    obtain ⟨after, _, ⟨⟩⟩ := h
    rfl
  | counting below allocations deallocations _ =>
    simp only [Store.construct, bind_eq_ok, except_pure] at h
    obtain ⟨after, _, ⟨⟩⟩ := h
    rfl
  | limited below remaining ih =>
    simp only [Store.construct, bind_eq_ok, except_pure] at h
    obtain ⟨after, hbelow, ⟨⟩⟩ := h
    exact ih (t := after) hbelow
  | recorded below calls ih =>
    simp only [Store.construct, bind_eq_ok, except_pure] at h
    obtain ⟨after, hbelow, ⟨⟩⟩ := h
    exact ih (t := after) hbelow

theorem allocations_deallocate {slot : Slot} {content : Option α} (h : Store.deallocate slot s = .ok (content, t)) :
    t.allocations = s.allocations := by
  induction s generalizing t content with
  | arena base =>
    simp only [Store.deallocate, bind_eq_ok, except_pure] at h
    obtain ⟨⟨found, after⟩, _, ⟨⟩⟩ := h
    rfl
  | counting below allocations deallocations _ =>
    simp only [Store.deallocate, bind_eq_ok, except_pure] at h
    obtain ⟨⟨found, after⟩, _, ⟨⟩⟩ := h
    rfl
  | limited below remaining ih =>
    simp only [Store.deallocate, bind_eq_ok, except_pure] at h
    obtain ⟨⟨found, after⟩, hbelow, ⟨⟩⟩ := h
    exact ih (t := after) hbelow
  | recorded below calls ih =>
    simp only [Store.deallocate, bind_eq_ok] at h
    obtain ⟨⟨found, after⟩, hbelow, h⟩ := h
    cases found <;> cases h <;> exact ih (t := after) hbelow

theorem Tied.or (hR : Tied R) (hS : Tied S) : Tied fun s t => R s t ∨ S s t where
  base _ _ h := h.elim (hR.base _ _) (hS.base _ _)
  construct _ _ slot item h := h.elim
    (fun h => (hR.construct _ _ slot item h).mono fun _ _ => .inl)
    fun h => (hS.construct _ _ slot item h).mono fun _ _ => .inr
  deallocate _ _ slot h := h.elim
    (fun h => (hR.deallocate _ _ slot h).mono fun _ _ h => ⟨h.1, .inl h.2⟩)
    fun h => (hS.deallocate _ _ slot h).mono fun _ _ h => ⟨h.1, .inr h.2⟩

/-- Stores over an arena that pass on to it what asks for no slot; `m` counts
    the slots taken back. -/
structure Passes (f : Arena α → Nat → Store α) : Prop where
  base : ∀ base m, (f base m).base = base
  construct : ∀ base m slot item,
    Store.construct slot item (f base m) = (base.construct slot item).map (f · m)
  deallocate : ∀ base m slot,
    Store.deallocate slot (f base m) = (base.deallocate slot).map fun x => (x.1, f x.2 (m + 1))

theorem passes_arena : Passes fun (base : Arena α) _ => arena base where
  base _ _ := rfl
  construct base _ slot item := by cases h : base.construct slot item <;> simp [Store.construct, h]
  deallocate base _ slot := by cases h : base.deallocate slot <;> simp [Store.deallocate, h]

theorem passes_counting (n : Nat) : Passes fun (base : Arena α) m => counting (arena base) n m where
  base _ _ := rfl
  construct base _ slot item := by cases h : base.construct slot item <;> simp [Store.construct, h]
  deallocate base _ slot := by cases h : base.deallocate slot <;> simp [Store.deallocate, h]

theorem passes_limited (n remaining : Nat) :
    Passes fun (base : Arena α) m => limited (counting (arena base) n m) remaining where
  base _ _ := rfl
  construct base _ slot item := by cases h : base.construct slot item <;> simp [Store.construct, h]
  deallocate base _ slot := by cases h : base.deallocate slot <;> simp [Store.deallocate, h]

theorem Passes.tied {f g : Arena α → Nat → Store α} (hf : Passes f) (hg : Passes g) :
    Tied fun s t => ∃ base m, base.Sound ∧ s = f base m ∧ t = g base m where
  base := by
    rintro _ _ ⟨base, m, _, rfl, rfl⟩
    rw [hf.base, hg.base]
  construct := by
    rintro _ _ slot item ⟨base, m, hbase, rfl, rfl⟩
    rw [hf.construct, hg.construct]
    cases hrun : base.construct slot item with
    | error fault => rfl
    | ok after => exact ⟨after, m, hbase.constructed hrun, rfl, rfl⟩
  deallocate := by
    rintro _ _ slot ⟨base, m, hbase, rfl, rfl⟩
    rw [hf.deallocate, hg.deallocate]
    cases hrun : base.deallocate slot with
    | error fault => rfl
    | ok result => exact ⟨rfl, result.2, m + 1, hbase.deallocated hrun, rfl, rfl⟩

theorem tied_counted (n : Nat) : Tied (Counted (α := α) n) :=
  passes_arena.tied (passes_counting n)

theorem tied_budgeted (b n : Nat) : Tied (Budgeted (α := α) b n) :=
  (passes_counting n).tied (passes_limited n (b - n))

theorem granting_counted (n : Nat) :
    Granting (Counted (α := α) n) fun s t => Counted n s t ∨ Counted (n + 1) s t := by
  rintro _ _ ⟨base, m, hbase, rfl, rfl⟩
  obtain ⟨slot, after, hrun, hafter, _⟩ | ⟨hrun, _⟩ := hbase.allocate
  · simp only [Store.allocate, hrun, ok_bind, except_pure]
    exact ⟨rfl, .inr ⟨after, m, hafter, rfl, rfl⟩⟩
  · simp only [Store.allocate, hrun, ok_bind, except_pure]
    exact ⟨rfl, .inl ⟨base, m, hbase, rfl, rfl⟩⟩

theorem granting_budgeted (hlt : n < b) :
    Granting (Budgeted (α := α) b n) fun s t => Budgeted b n s t ∨ Budgeted b (n + 1) s t := by
  rintro _ _ ⟨base, m, hbase, rfl, rfl⟩
  have hleft : b - n ≠ 0 := by omega
  obtain ⟨slot, after, hrun, hafter, _⟩ | ⟨hrun, _⟩ := hbase.allocate
  · simp only [Store.allocate, hrun, ok_bind, except_pure, hleft, if_false]
    rw [show b - n - 1 = b - (n + 1) by omega]
    exact ⟨rfl, .inr ⟨after, m, hafter, rfl, rfl⟩⟩
  · simp only [Store.allocate, hrun, ok_bind, except_pure, hleft, if_false]
    exact ⟨rfl, .inl ⟨base, m, hbase, rfl, rfl⟩⟩

theorem granting_counted_full (n : Nat) :
    Granting (fun s t => Counted (α := α) n s t ∧ ¬ s.base.HasRoom) (Counted n) := by
  rintro _ _ ⟨⟨base, m, hbase, rfl, rfl⟩, hfull⟩
  obtain ⟨_, _, _, _, hroom, _⟩ | ⟨hrun, _⟩ := hbase.allocate
  · exact absurd hroom hfull
  · simp only [Store.allocate, hrun, ok_bind, except_pure]
    exact ⟨rfl, base, m, hbase, rfl, rfl⟩

theorem granting_budgeted_full (b n : Nat) :
    Granting (fun s t => Budgeted (α := α) b n s t ∧ ¬ s.base.HasRoom) (Budgeted b n) := by
  rintro _ _ ⟨⟨base, m, hbase, rfl, rfl⟩, hfull⟩
  obtain ⟨_, _, _, _, hroom, _⟩ | ⟨hrun, _⟩ := hbase.allocate
  · exact absurd hroom hfull
  · simp only [Store.allocate, hrun, ok_bind, except_pure]
    split <;> exact ⟨rfl, base, m, hbase, rfl, rfl⟩

end Store

namespace Tree

open RedBlack.Action

variable {α κ ε ρ υ : Type} {key : α → κ} {Q : Store α → Prop} {refusal : ρ → Prop} {c l : Tree key}

/-- What a store is kept for through everything that asks for no slot, so that
    whatever asks for none is answered alike. -/
structure Steady (Q : Store α → Prop) : Prop where
  construct : ∀ s t slot item, Q s → Store.construct slot item s = .ok t → Q t
  deallocate : ∀ s t slot content, Q s → Store.deallocate slot s = .ok (content, t) → Q t

/-- One operation on two trees of which only the first one gets slots: either it
    asks for none, and nothing tells the trees apart, or the second tree refuses
    and stays as it is. -/
inductive Diverging (Q : Store α → Prop) (refusal : ρ → Prop) (op : Op key ρ) (c l : Tree key) : Prop where
  | alike : (op.run c).state = c → (op.run l).state = l → (op.run l).answer = (op.run c).answer →
    (op.run l).asked = (op.run c).asked → (op.run l).notes = (op.run c).notes → Diverging Q refusal op c l
  | refused {x : ρ} : (op.run l).answer = .ok x → refusal x → (op.run l).state = l →
    op.wp (fun y u => ¬ refusal y ∧ Q u.store) (fun _ u => Q u.store) c → Diverging Q refusal op c l

namespace Diverging

theorem map {refusal : υ → Prop} {op : Op key ρ} {f : ρ → υ} (h : Diverging Q (fun x => refusal (f x)) op c l) :
    Diverging Q refusal (f <$> op) c l := by
  cases h with
  | alike hc hl hanswer hasked hnotes =>
    refine .alike ?_ ?_ ?_ ?_ ?_ <;> simp only [run_map_eq]
    · exact hc
    · exact hl
    · rw [hanswer]
    · exact hasked
    · exact hnotes
  | refused hanswer hrefusal hl hc =>
    refine .refused ?_ hrefusal ?_ ?_
    · rw [run_map_eq, hanswer]
      rfl
    · rw [run_map_eq]
      exact hl
    · rw [wp_map]
      exact hc

/-- A question is answered by both trees alike; what comes after it may part
    them. -/
theorem ask_bind {question : Tree key → Query κ ρ} {next : ρ → Op key υ} {refusal : υ → Prop}
    (hquestion : question l = question c) (hnext : ∀ x, Diverging Q refusal (next x) c l) :
    Diverging Q refusal (.ask question >>= next) c l := by
  rcases hc : question c with fault | ⟨x, asked⟩
  · rw [hc] at hquestion
    refine .alike ?_ ?_ ?_ ?_ ?_ <;> simp only [run_ask_error hc, run_ask_error hquestion]
  · have hl := hquestion.trans hc
    cases hnext x with
    | alike hc' hl' hanswer hasked hnotes =>
      refine .alike ?_ ?_ ?_ ?_ ?_ <;> simp only [run_ask_bind hc, run_ask_bind hl]
      · exact hc'
      · exact hl'
      · exact hanswer
      · rw [hasked]
      · exact hnotes
    | refused hanswer hrefusal hl' hwp =>
      refine .refused ?_ hrefusal ?_ ?_
      · rw [run_ask_bind hl]
        exact hanswer
      · rw [run_ask_bind hl]
        exact hl'
      · rw [wp_bind, wp_ask, hc]
        exact hwp

theorem look_bind {view : Tree key → Except Fault ρ} {next : ρ → Op key υ} {refusal : υ → Prop}
    (hview : view l = view c) (hnext : ∀ x, Diverging Q refusal (next x) c l) :
    Diverging Q refusal (.look view >>= next) c l := by
  rw [look_eq_ask]
  exact ask_bind (by rw [hview]) hnext

theorem pure (x : ρ) : Diverging Q refusal (Pure.pure x) c l :=
  .alike rfl rfl rfl rfl rfl

end Diverging

section Spent

variable {slot : Slot} {s₁ s' : Store α} {search : Tree key → κ → Query κ Vacancy}
  {place : Tree key → κ → Query κ Place}

theorem preserves_construct (hQ : Steady Q) (slot : Slot) (item : α) :
    (construct slot item : Op key Unit).Preserves fun u => Q u.store := by
  intro t ht
  rw [construct, wp_step]
  cases hrun : t.store.construct slot item with
  | error fault => exact ht
  | ok store => exact hQ.construct _ _ _ _ ht hrun

theorem preserves_giveBack (hQ : Steady Q) (slot : Slot) :
    (giveBack slot : Op key Unit).Preserves fun u => Q u.store := by
  intro t ht
  rw [giveBack, wp_step]
  cases hrun : t.store.deallocate slot with
  | error fault => exact ht
  | ok result => exact hQ.deallocate _ _ _ _ ht hrun

theorem preserves_release (hQ : Steady Q) (slot : Slot) :
    (release slot : Op key α).Preserves fun u => Q u.store := by
  intro t ht
  rw [release, wp_step]
  rcases hrun : t.store.deallocate slot with fault | ⟨_ | item, store⟩
  · exact ht
  · exact ht
  · exact hQ.deallocate _ _ _ _ ht hrun

theorem preserves_hang (slot : Slot) (place : Place) :
    (hang slot place : Op key Position).Preserves fun u => Q u.store := by
  intro t ht
  rw [hang, wp_step]
  simp only [attach]
  cases t.shape.attach slot place <;> exact ht

variable (hQ : Steady Q) (hc : c.store.allocate = .ok (.ok slot, s₁)) (hs₁ : Q s₁)
  (hl : l.store.allocate = .ok (.error .noSlot, l.store))

include hc hs₁ in
theorem wp_allocate_granted {next : Except AllocError Slot → Op key ρ} {done : ρ → Tree key → Prop}
    {stopped : Fault → Tree key → Prop}
    (hnext : ∀ u : Tree key, Q u.store → (next (.ok slot)).wp done stopped u) :
    (allocate >>= next).wp done stopped c := by
  rw [wp_bind, allocate, wp_step]
  simp only [hc, ok_bind, except_pure]
  exact hnext _ hs₁

include hl in
theorem run_allocate_refused {next : Except AllocError Slot → Op key ρ} {x : ρ}
    (hnext : next (.error .noSlot) = Pure.pure x) : (allocate >>= next).run l = { state := l, answer := .ok x } := by
  rw [allocate, run_step_bind (x := .error .noSlot) (t := l) (by simp [hl]), hnext]
  rfl

include hQ hc hs₁ hl

theorem diverging_insertAt {refusal : Except AllocError Position → Prop} (item : α) (place : Place)
    (hrefusal : refusal (.error .noSlot)) (hok : ∀ p, ¬ refusal (.ok p)) :
    Diverging Q refusal (insertAt item place) c l := by
  have hrun : (insertAt item place).run l = { state := l, answer := .ok (.error .noSlot) } :=
    run_allocate_refused hl rfl
  refine .refused (x := .error .noSlot) (by rw [hrun]) hrefusal (by rw [hrun]) ?_
  refine wp_allocate_granted hc hs₁ fun u hu => ?_
  simp only
  rw [wp_bind]
  refine wp_mono (preserves_construct hQ slot item u hu) (fun _ v hv => ?_) fun _ _ => id
  rw [wp_bind]
  exact wp_mono (preserves_hang slot place v hv) (fun p w hw => ⟨hok p, hw⟩) fun _ _ => id

theorem diverging_insertUniqueBy {refusal : Except AllocError (Position × Bool) → Prop}
    (search : Tree key → κ → Query κ Vacancy) (item : α) (hsearch : search l (key item) = search c (key item))
    (htag : l.tag = c.tag) (hrefusal : refusal (.error .noSlot)) (hok : ∀ x, ¬ refusal (.ok x)) :
    Diverging Q refusal (insertUniqueBy search item) c l := by
  refine .ask_bind hsearch fun vacancy => ?_
  cases vacancy with
  | occupied slot =>
    refine .look_bind ?_ fun p => .pure _
    simp only [position, htag]
  | vacant place => exact .map (diverging_insertAt hQ hc hs₁ hl item place hrefusal fun p => hok _)

theorem diverging_insertEqualBy {refusal : Except AllocError Position → Prop}
    (search : Tree key → κ → Query κ Place) (item : α) (hsearch : search l (key item) = search c (key item))
    (hrefusal : refusal (.error .noSlot)) (hok : ∀ x, ¬ refusal (.ok x)) :
    Diverging Q refusal (insertEqualBy search item) c l :=
  .ask_bind hsearch fun place => diverging_insertAt hQ hc hs₁ hl item place hrefusal hok

omit hQ hc hs₁ in
theorem run_buildNode_refused (build : Unit → Except ε α) :
    (buildNode build).run l = { state := l, answer := .ok { calls := 0, result := .error (.alloc .noSlot) } } :=
  run_allocate_refused hl rfl

omit hl in
/-- With a slot at hand there is no refusal: the item is built, or building it
    fails. -/
theorem wp_buildNode_granted (build : Unit → Except ε α) :
    (buildNode build).wp (fun b u => b.result ≠ .error (.alloc .noSlot) ∧ Q u.store) (fun _ u => Q u.store) c := by
  refine wp_allocate_granted hc hs₁ fun u hu => ?_
  simp only
  cases hbuild : build () with
  | error error =>
    simp only [Built.call_of_error hbuild, wp_bind]
    exact wp_mono (preserves_giveBack hQ slot u hu) (fun _ v hv => ⟨by simp, hv⟩) fun _ _ => id
  | ok item =>
    simp only [Built.call_of_ok hbuild, wp_bind]
    exact wp_mono (preserves_construct hQ slot item u hu) (fun _ v hv => ⟨by simp, hv⟩) fun _ _ => id

/-- Whoever builds the item first asks for the slot first, so only the first
    tree goes on. -/
theorem diverging_buildNode {refusal : Built ε ρ → Prop} {build : Unit → Except ε α}
    {next : Built ε (Slot × α) → Op key (Built ε ρ)}
    (hrefused : next { calls := 0, result := .error (.alloc .noSlot) } =
      Pure.pure { calls := 0, result := .error (.alloc .noSlot) })
    (hrefusal : refusal { calls := 0, result := .error (.alloc .noSlot) })
    (hnext : ∀ b (u : Tree key), b.result ≠ .error (.alloc .noSlot) → Q u.store →
      (next b).wp (fun y v => ¬ refusal y ∧ Q v.store) (fun _ v => Q v.store) u) :
    Diverging Q refusal (buildNode build >>= next) c l := by
  have hfirst := run_buildNode_refused hl build
  have hrun := run_bind_ok (a := buildNode build) (s := l) (by rw [hfirst]) next
  rw [hfirst, hrefused] at hrun
  refine .refused hrun.2 hrefusal hrun.1 ?_
  rw [wp_bind]
  exact wp_mono (wp_buildNode_granted hQ hc hs₁ build) (fun b u hb => hnext b u hb.1 hb.2) fun _ _ => id

theorem diverging_insertUniqueWithBy {refusal : Built ε (Position × Bool) → Prop}
    (search : Tree key → κ → Query κ Vacancy) (build : Unit → Except ε α)
    (hrefusal : refusal { calls := 0, result := .error (.alloc .noSlot) })
    (hother : ∀ b, b.result ≠ .error (.alloc .noSlot) → ¬ refusal b) :
    Diverging Q refusal (insertUniqueWithBy search build) c l := by
  refine diverging_buildNode hQ hc hs₁ hl rfl hrefusal fun b u hb hu => ?_
  obtain ⟨calls, failure | ⟨slot, item⟩⟩ := b
  · exact ⟨hother _ (by simpa using hb), hu⟩
  · simp only [wp_bind]
    refine wp_mono (preserves_ask _ u hu) (fun vacancy v hv => ?_) fun _ _ => id
    cases vacancy with
    | occupied other =>
      simp only [wp_bind]
      refine wp_mono (preserves_release hQ slot v hv) (fun _ w hw => ?_) fun _ _ => id
      rw [wp_bind]
      exact wp_mono (preserves_look _ w hw) (fun p x hx => ⟨hother _ (by simp), hx⟩) fun _ _ => id
    | vacant place =>
      simp only [wp_bind]
      exact wp_mono (preserves_hang slot place v hv) (fun p w hw => ⟨hother _ (by simp), hw⟩) fun _ _ => id

theorem diverging_insertEqualWithBy {refusal : Built ε Position → Prop}
    (search : Tree key → κ → Query κ Place) (build : Unit → Except ε α)
    (hrefusal : refusal { calls := 0, result := .error (.alloc .noSlot) })
    (hother : ∀ b, b.result ≠ .error (.alloc .noSlot) → ¬ refusal b) :
    Diverging Q refusal (insertEqualWithBy search build) c l := by
  refine diverging_buildNode hQ hc hs₁ hl rfl hrefusal fun b u hb hu => ?_
  obtain ⟨calls, failure | ⟨slot, item⟩⟩ := b
  · exact ⟨hother _ (by simpa using hb), hu⟩
  · simp only [wp_bind]
    refine wp_mono (preserves_ask _ u hu) (fun place v hv => ?_) fun _ _ => id
    rw [wp_bind]
    exact wp_mono (preserves_hang slot place v hv) (fun p w hw => ⟨hother _ (by simp), hw⟩) fun _ _ => id

end Spent

/-- Whether the reply is that there was no slot. -/
def Reply.isRefusal (r : Reply α ε) : Bool :=
  match r.failure? with
  | some failure => failure.isAlloc
  | none => false

/-- Whether the response is that there was no slot. -/
def Response.isRefusal : Response key ε → Bool
  | .reply r => r.isRefusal
  | .finding _ => false

/-- A tree that is given a slot and one that is refused: a request either shows
    no difference between them, or is refused by the second one. -/
theorem diverging_command {R : Store α → Store α → Prop} {slot : Slot} {s₁ : Store α} {r : Command α κ ε}
    (hr : r.Inserts) (hover : Over R c l) (hR : ∀ s s', R s s' → s'.base = s.base) (hQ : Steady Q)
    (hc : c.store.allocate = .ok (.ok slot, s₁)) (hs₁ : Q s₁)
    (hl : l.store.allocate = .ok (.error .noSlot, l.store)) :
    Diverging Q (fun x => x.isRefusal = true) r.run c l := by
  have hview {ρ : Type} (view : Tree key → ρ) (h : ∀ t, view t.bare = view t) : view l = view c :=
    hover.view_eq hR view h
  have htag : l.tag = c.tag := hview Tree.tag fun _ => rfl
  have hunique (b : Built ε (Position × Bool)) (hb : b.result ≠ .error (.alloc .noSlot)) :
      ¬ (Reply.uniqueWith b : Reply α ε).isRefusal = true := by
    obtain ⟨calls, (⟨⟨⟩⟩ | error) | answer⟩ := b
    · exact absurd rfl hb
    · exact nofun
    · exact nofun
  have hequal (b : Built ε Position) (hb : b.result ≠ .error (.alloc .noSlot)) :
      ¬ (Reply.equalWith b : Reply α ε).isRefusal = true := by
    obtain ⟨calls, (⟨⟨⟩⟩ | error) | answer⟩ := b
    · exact absurd rfl hb
    · exact nofun
    · exact nofun
  cases r with
  | insertUnique item =>
    exact .map (diverging_insertUniqueBy hQ hc hs₁ hl _ item (hview (·.uniquePlace _) fun _ => rfl) htag rfl nofun)
  | insertEqual item =>
    exact .map (diverging_insertEqualBy hQ hc hs₁ hl _ item (hview (·.equalPlace _ _) fun _ => rfl) rfl nofun)
  | insertUniqueHint hint item =>
    refine .map (.look_bind (hview (·.own hint) fun _ => rfl) fun slot => ?_)
    refine diverging_insertUniqueBy hQ hc hs₁ hl _ item (hview (·.hintedUniquePlace slot _) fun _ => ?_) htag rfl nofun
    cases slot <;> rfl
  | insertEqualHint hint item =>
    refine .map (.look_bind (hview (·.own hint) fun _ => rfl) fun slot => ?_)
    refine diverging_insertEqualBy hQ hc hs₁ hl _ item (hview (·.hintedEqualPlace slot _) fun _ => ?_) rfl nofun
    cases slot <;> rfl
  | insertUniqueWith build => exact .map (diverging_insertUniqueWithBy hQ hc hs₁ hl _ build rfl hunique)
  | insertEqualWith build => exact .map (diverging_insertEqualWithBy hQ hc hs₁ hl _ build rfl hequal)
  | insertUniqueHintWith hint build =>
    refine .map (.look_bind (hview (·.own hint) fun _ => rfl) fun slot => ?_)
    exact diverging_insertUniqueWithBy hQ hc hs₁ hl _ build rfl hunique
  | insertEqualHintWith hint build =>
    refine .map (.look_bind (hview (·.own hint) fun _ => rfl) fun slot => ?_)
    exact diverging_insertEqualWithBy hQ hc hs₁ hl _ build rfl hequal
  | _ => exact hr.elim

end Tree

end RedBlack
