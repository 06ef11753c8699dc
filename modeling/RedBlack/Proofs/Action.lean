import RedBlack.Action

namespace RedBlack

section Except

variable {ε α β : Type}

@[simp] theorem ok_bind (a : α) (f : α → Except ε β) : (Except.ok a >>= f) = f a :=
  rfl

@[simp] theorem error_bind (e : ε) (f : α → Except ε β) : (Except.error e >>= f) = .error e :=
  rfl

@[simp] theorem except_pure (a : α) : (pure a : Except ε α) = .ok a :=
  rfl

/-- What comes of two computations, one after the other, comes of the second
    one. -/
theorem bind_eq_ok {x : Except ε α} {f : α → Except ε β} {b : β} :
    x >>= f = .ok b ↔ ∃ a, x = .ok a ∧ f a = .ok b := by
  cases x with
  | ok a => simp
  | error e => simp

theorem map_eq_ok {x : Except ε α} {f : α → β} {b : β} : x.map f = .ok b ↔ ∃ a, x = .ok a ∧ f a = b := by
  cases x with
  | ok a => simp [Except.map]
  | error e => simp [Except.map]

@[simp] theorem except_map (f : α → β) (a : α) : (Except.ok a : Except ε α).map f = .ok (f a) :=
  rfl

@[simp] theorem except_map_error (f : α → β) (e : ε) : (Except.error e : Except ε α).map f = .error e :=
  rfl

end Except

namespace Query

variable {κ ρ υ : Type}

@[simp] theorem answer_ok (value : ρ) (asked : List (κ × κ)) :
    answer (.ok (value, asked)) = .ok value :=
  rfl

theorem exists_asked {q : Query κ ρ} {value : ρ} (h : q.answer = .ok value) : ∃ asked, q = .ok (value, asked) := by
  rcases q with fault | ⟨result, asked⟩
  · cases h
  · cases h
    exact ⟨asked, rfl⟩

@[simp] theorem answer_pure (value : ρ) : answer (pure value : Query κ ρ) = .ok value :=
  rfl

@[simp] theorem answer_bind (q : Query κ ρ) (next : ρ → Query κ υ) :
    (q >>= next).answer = q.answer >>= fun value => (next value).answer := by
  rcases q with fault | ⟨value, asked⟩
  · rfl
  · change (Query.bind (.ok (value, asked)) next).answer = (next value).answer
    rw [Query.bind]
    rcases next value with fault | ⟨result, more⟩ <;> rfl

@[simp] theorem answer_lift (x : Except Fault ρ) : answer (liftM x : Query κ ρ) = x := by
  cases x <;> rfl

@[simp] theorem answer_compare (less : κ → κ → Bool) (a b : κ) :
    (compare less a b).answer = .ok (less a b) :=
  rfl

end Query

namespace Action

variable {σ τ κ ρ υ : Type}

/-- What holds after an operation: `done` of its answer and the state left, or
    `stopped` of its fault and the state left. Of the comparisons and the notes
    it says nothing. -/
def wp (a : Action σ κ ρ) (done : ρ → σ → Prop) (stopped : Fault → σ → Prop) (s : σ) : Prop :=
  match (a.run s).answer with
  | .ok value => done value (a.run s).state
  | .error fault => stopped fault (a.run s).state

/-- An operation that answers, with what holds then. -/
abbrev Yields (a : Action σ κ ρ) (s : σ) (done : ρ → σ → Prop) : Prop :=
  a.wp done (fun _ _ => False) s

variable {done : ρ → σ → Prop} {stopped : Fault → σ → Prop} {s : σ}

@[simp] theorem wp_pure (value : ρ) : (pure value : Action σ κ ρ).wp done stopped s ↔ done value s :=
  Iff.rfl

@[simp] theorem wp_bind (a : Action σ κ ρ) (next : ρ → Action σ κ υ) {done : υ → σ → Prop} :
    (a >>= next).wp done stopped s ↔ a.wp (fun value => (next value).wp done stopped) stopped s := by
  change (Action.bind a next).wp done stopped s ↔ _
  simp only [wp, run, Action.bind]
  cases (a s).answer <;> rfl

@[simp] theorem wp_map (a : Action σ κ ρ) (f : ρ → υ) {done : υ → σ → Prop} :
    (f <$> a).wp done stopped s ↔ a.wp (fun value => done (f value)) stopped s :=
  wp_bind a fun value => pure (f value)

theorem wp_ask (question : σ → Query κ ρ) :
    (ask question).wp done stopped s ↔
      match (question s).answer with
      | .ok value => done value s
      | .error fault => stopped fault s := by
  rcases h : question s with fault | ⟨value, asked⟩ <;> simp [wp, run, ask, h, Query.answer]

theorem wp_look (view : σ → Except Fault ρ) :
    (look view : Action σ κ ρ).wp done stopped s ↔
      match view s with
      | .ok value => done value s
      | .error fault => stopped fault s :=
  Iff.rfl

theorem wp_step (change : σ → Except Fault (ρ × σ)) :
    (step change : Action σ κ ρ).wp done stopped s ↔
      match change s with
      | .ok (value, after) => done value after
      | .error fault => stopped fault s := by
  rcases h : change s with fault | ⟨value, after⟩ <;> simp [wp, run, step, h]

theorem wp_ask_ok {question : σ → Query κ ρ} {value : ρ} (h : (question s).answer = .ok value) :
    (ask question).wp done stopped s ↔ done value s := by
  rw [wp_ask, h]

theorem wp_look_ok {view : σ → Except Fault ρ} {value : ρ} (h : view s = .ok value) :
    (look view : Action σ κ ρ).wp done stopped s ↔ done value s := by
  rw [wp_look, h]

theorem wp_view (view : σ → ρ) :
    (look fun s => .ok (view s) : Action σ κ ρ).wp done stopped s ↔ done (view s) s :=
  Iff.rfl

theorem wp_step_ok {change : σ → Except Fault (ρ × σ)} {value : ρ} {after : σ}
    (h : change s = .ok (value, after)) :
    (step change : Action σ κ ρ).wp done stopped s ↔ done value after := by
  rw [wp_step, h]

@[simp] theorem wp_note (n : Note) {done : Unit → σ → Prop} :
    (note n : Action σ κ Unit).wp done stopped s ↔ done () s :=
  Iff.rfl

theorem wp_notes (notes : List Note) {done : PUnit → σ → Prop} :
    (notes.forM note : Action σ κ PUnit).wp done stopped s ↔ done ⟨⟩ s := by
  induction notes with
  | nil => exact Iff.rfl
  | cons n rest ih =>
    change (note n >>= fun _ => rest.forM note).wp done stopped s ↔ _
    rw [wp_bind, wp_note]
    exact ih

@[simp] theorem wp_within (part : σ → τ) (put : τ → σ → σ) (a : Action τ κ ρ) :
    (a.within part put).wp done stopped s ↔
      a.wp (fun value t => done value (put t s)) (fun fault t => stopped fault (put t s)) (part s) :=
  Iff.rfl

theorem wp_mono {a : Action σ κ ρ} {done' : ρ → σ → Prop} {stopped' : Fault → σ → Prop}
    (h : a.wp done stopped s) (hdone : ∀ value t, done value t → done' value t)
    (hstopped : ∀ fault t, stopped fault t → stopped' fault t) : a.wp done' stopped' s := by
  unfold wp at h ⊢
  cases hrun : (a.run s).answer with
  | ok value => simp only [hrun] at h ⊢; exact hdone _ _ h
  | error fault => simp only [hrun] at h ⊢; exact hstopped _ _ h

section Answers

variable {a : Action σ κ ρ} {next : ρ → Action σ κ υ}


theorem wp_bind_any {done : υ → σ → Prop} (h : ∀ value t, (next value).wp done (fun _ _ => True) t) :
    (a >>= next).wp done (fun _ _ => True) s := by
  rw [wp_bind, wp]
  split
  · exact h _ _
  · trivial

theorem wp_ask_any {question : σ → Query κ ρ} (h : ∀ value, done value s) :
    (ask question).wp done (fun _ _ => True) s := by
  rw [wp_ask]
  split
  · exact h _
  · trivial

theorem wp_look_any {view : σ → Except Fault ρ} (h : ∀ value, done value s) :
    (look view : Action σ κ ρ).wp done (fun _ _ => True) s := by
  rw [wp_look]
  split
  · exact h _
  · trivial

end Answers

theorem state_of_wp {a : Action σ κ ρ} {left : σ → Prop} (h : a.wp (fun _ => left) (fun _ => left) s) :
    left (a.run s).state := by
  unfold wp at h
  split at h <;> exact h

theorem state_eq_of_wp {a : Action σ κ ρ} {t : σ} (h : a.wp (fun _ u => u = t) (fun _ u => u = t) s) :
    (a.run s).state = t :=
  state_of_wp h

/-- However the operation ends, with an answer or with a fault, it leaves a
    state with the property that the state before it had. -/
def Preserves (a : Action σ κ ρ) (holds : σ → Prop) : Prop :=
  ∀ s, holds s → a.wp (fun _ => holds) (fun _ => holds) s

section Preserves

variable {β : Type} {holds : σ → Prop} {a : Action σ κ ρ}

theorem preserves_ask (question : σ → Query κ ρ) : (ask question).Preserves holds := by
  intro s hs
  rw [wp_ask]
  split <;> exact hs

theorem preserves_look (view : σ → Except Fault ρ) : (look view : Action σ κ ρ).Preserves holds := by
  intro s hs
  rw [wp_look]
  split <;> exact hs

theorem Preserves.map (h : a.Preserves holds) (f : ρ → υ) : (f <$> a).Preserves holds := by
  intro s hs
  rw [wp_map]
  exact h s hs

theorem Preserves.forM {step : β → Action σ κ Unit} (h : ∀ b, (step b).Preserves holds) (items : List β) :
    (items.forM step).Preserves holds := by
  induction items with
  | nil => exact fun s hs => hs
  | cons b rest ih =>
    intro s hs
    change (step b >>= fun _ => rest.forM step).wp _ _ s
    rw [wp_bind]
    exact wp_mono (h b s hs) (fun _ n hn => ih n hn) fun _ _ hstopped => hstopped

end Preserves

theorem Yields.answer {a : Action σ κ ρ} (h : a.Yields s done) :
    ∃ value, (a.run s).answer = .ok value ∧ done value (a.run s).state := by
  unfold Yields wp at h
  split at h
  · next value hrun => exact ⟨value, hrun, h⟩
  · exact h.elim

theorem Yields.mono {a : Action σ κ ρ} {done' : ρ → σ → Prop} (h : a.Yields s done)
    (hdone : ∀ value t, done value t → done' value t) : a.wp done' stopped s :=
  wp_mono h hdone fun _ _ hfalse => hfalse.elim

/-- After an answer, the next operation goes on with the state left. -/
theorem run_bind_ok {a : Action σ κ ρ} {value : ρ} (h : (a.run s).answer = .ok value)
    (next : ρ → Action σ κ υ) :
    ((a >>= next).run s).state = ((next value).run (a.run s).state).state ∧
      ((a >>= next).run s).answer = ((next value).run (a.run s).state).answer := by
  change (Action.bind a next s).state = _ ∧ (Action.bind a next s).answer = _
  have hrun : (a s).answer = .ok value := h
  simp only [Action.bind, hrun]
  exact ⟨rfl, rfl⟩

theorem run_bind_error {a : Action σ κ ρ} {fault : Fault} (h : (a.run s).answer = .error fault)
    (next : ρ → Action σ κ υ) :
    ((a >>= next).run s).state = (a.run s).state ∧ ((a >>= next).run s).answer = .error fault := by
  change (Action.bind a next s).state = _ ∧ (Action.bind a next s).answer = _
  have hrun : (a s).answer = .error fault := h
  simp only [Action.bind, hrun, run, and_self]

theorem run_map (a : Action σ κ ρ) (f : ρ → υ) :
    ((f <$> a).run s).state = (a.run s).state ∧ ((f <$> a).run s).answer = (a.run s).answer.map f := by
  change (Action.bind a _ s).state = (a s).state ∧ (Action.bind a _ s).answer = (a s).answer.map f
  cases hrun : (a s).answer with
  | ok value =>
    simp only [Action.bind, hrun]
    exact ⟨rfl, rfl⟩
  | error fault =>
    simp only [Action.bind, hrun]
    exact ⟨trivial, rfl⟩

theorem run_map_eq (a : Action σ κ ρ) (f : ρ → υ) :
    (f <$> a).run s = { a.run s with answer := (a.run s).answer.map f } := by
  change Action.bind a _ s = _
  simp only [Action.bind, run]
  cases a s with
  | mk state answer asked notes => cases answer <;> simp [Except.map, Action.pure]

/-- After a question that is answered, the next operation goes on in the same
    state. -/
theorem run_ask_bind {question : σ → Query κ ρ} {value : ρ} {asked : List (κ × κ)}
    (h : question s = .ok (value, asked)) (next : ρ → Action σ κ υ) :
    (ask question >>= next).run s = { (next value).run s with asked := asked ++ ((next value).run s).asked } := by
  change Action.bind (ask question) next s = _
  simp [Action.bind, ask, h, run]

theorem look_eq_ask (view : σ → Except Fault ρ) :
    (look view : Action σ κ ρ) = ask fun s => Query.known (view s) := by
  funext s
  rw [look, ask]
  cases view s <;> rfl

/-- A step that answers does nothing but to change the state. -/
theorem run_step_ok {change : σ → Except Fault (ρ × σ)} {x : ρ}
    (h : ((step change).run s : Outcome σ κ ρ).answer = .ok x) :
    ((step change).run s : Outcome σ κ ρ) =
      { state := ((step change).run s : Outcome σ κ ρ).state, answer := .ok x } := by
  unfold run step at h ⊢
  cases hrun : change s with
  | ok after =>
    rw [hrun] at h
    simp only at h ⊢
    rw [h]
  | error fault =>
    rw [hrun] at h
    cases h

theorem run_ask_error {question : σ → Query κ ρ} {fault : Fault} (h : question s = .error fault)
    (next : ρ → Action σ κ υ) : (ask question >>= next).run s = { state := s, answer := .error fault } := by
  change Action.bind (ask question) next s = _
  simp [Action.bind, ask, h]

theorem run_pure (x : ρ) : (pure x : Action σ κ ρ).run s = { state := s, answer := .ok x } :=
  rfl

/-- After an operation that answers, compares nothing and writes no note, the
    next one goes on as if it were the first. -/
theorem run_silent_bind {a : Action σ κ ρ} {x : ρ} {t : σ} (h : a.run s = { state := t, answer := .ok x })
    (next : ρ → Action σ κ υ) : (a >>= next).run s = (next x).run t := by
  have hrun : a s = { state := t, answer := .ok x } := h
  change Action.bind a next s = _
  simp [Action.bind, hrun, run]

theorem run_step_bind {change : σ → Except Fault (ρ × σ)} {x : ρ} {t : σ} (h : change s = .ok (x, t))
    (next : ρ → Action σ κ υ) : (step change >>= next).run s = (next x).run t := by
  apply run_silent_bind
  simp [step, h, run]

end Action

end RedBlack
