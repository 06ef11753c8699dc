import RedBlack.Proofs.Action

namespace RedBlack

variable {α β γ δ : Type}

/-- Both computations answer, with related answers, or both stop with the same
    fault. -/
def Matched (R : α → β → Prop) : Except Fault α → Except Fault β → Prop
  | .ok a, .ok b => R a b
  | .error fault, .error other => fault = other
  | _, _ => False

namespace Matched

variable {R : α → β → Prop} {S : γ → δ → Prop} {x : Except Fault α} {y : Except Fault β}

theorem bind {next : α → Except Fault γ} {next' : β → Except Fault δ} (h : Matched R x y)
    (hnext : ∀ a b, R a b → Matched S (next a) (next' b)) : Matched S (x >>= next) (y >>= next') := by
  cases x <;> cases y
  · exact h
  · exact h.elim
  · exact h.elim
  · exact hnext _ _ h

theorem mono {R' : α → β → Prop} (h : Matched R x y) (himp : ∀ a b, R a b → R' a b) : Matched R' x y := by
  cases x <;> cases y
  · exact h
  · exact h
  · exact h
  · exact himp _ _ h

theorem of_eq {x y : Except Fault α} (h : y = x) : Matched Eq x y := by
  subst h
  cases y <;> rfl

theorem eq_map {f : α → β} (h : Matched (fun a b => b = f a) x y) : y = x.map f := by
  cases x <;> cases y
  · exact congrArg _ (Eq.symm h)
  · exact h.elim
  · exact h.elim
  · exact congrArg _ h

end Matched

namespace Query

variable {κ ρ ρ' υ υ' : Type} {R : ρ → ρ' → Prop} {S : υ → υ' → Prop} {q : Query κ ρ} {q' : Query κ ρ'}

/-- Two questions match that make the same comparisons, in the same order, and
    answer alike or stop with the same fault. -/
def Matched (R : ρ → ρ' → Prop) (q : Query κ ρ) (q' : Query κ ρ') : Prop :=
  RedBlack.Matched (fun a b => R a.1 b.1 ∧ a.2 = b.2) q q'

namespace Matched

theorem pure {a : ρ} {b : ρ'} (h : R a b) : Matched R (pure a : Query κ ρ) (pure b : Query κ ρ') :=
  ⟨h, rfl⟩

theorem bind {next : ρ → Query κ υ} {next' : ρ' → Query κ υ'} (h : Matched R q q')
    (hnext : ∀ a b, R a b → Matched S (next a) (next' b)) : Matched S (q >>= next) (q' >>= next') := by
  rcases q with fault | ⟨a, asked⟩ <;> rcases q' with fault' | ⟨b, asked'⟩
  · exact h
  · exact h.elim
  · exact h.elim
  · obtain ⟨hab, rfl⟩ : R a b ∧ asked = asked' := h
    have hrest : RedBlack.Matched _ (next a) (next' b) := hnext a b hab
    change RedBlack.Matched _ (Query.bind (.ok (a, asked)) next) (Query.bind (.ok (b, asked)) next')
    rw [Query.bind, Query.bind]
    generalize next a = r at hrest ⊢
    generalize next' b = r' at hrest ⊢
    rcases r with fault | ⟨c, more⟩ <;> rcases r' with fault' | ⟨d, more'⟩
    · exact hrest
    · exact hrest.elim
    · exact hrest.elim
    · exact ⟨hrest.1, congrArg _ hrest.2⟩

theorem mono {R' : ρ → ρ' → Prop} (h : Matched R q q') (himp : ∀ a b, R a b → R' a b) : Matched R' q q' :=
  RedBlack.Matched.mono h fun _ _ hab => ⟨himp _ _ hab.1, hab.2⟩

theorem refl (q : Query κ ρ) : Matched Eq q q := by
  rcases q with fault | ⟨a, asked⟩
  · rfl
  · exact ⟨rfl, rfl⟩

theorem eq {q q' : Query κ ρ} (h : Matched Eq q q') : q' = q := by
  rcases q with fault | ⟨a, asked⟩ <;> rcases q' with fault' | ⟨b, asked'⟩
  · exact congrArg _ (Eq.symm h)
  · exact h.elim
  · exact h.elim
  · obtain ⟨rfl, rfl⟩ : a = b ∧ asked = asked' := h
    rfl

theorem lift {x : Except Fault ρ} {y : Except Fault ρ'} (h : RedBlack.Matched R x y) :
    Matched R (liftM x : Query κ ρ) (liftM y : Query κ ρ') := by
  cases x <;> cases y
  · exact h
  · exact h
  · exact h
  · exact ⟨h, rfl⟩

theorem compare (less : κ → κ → Bool) (a b : κ) :
    Matched Eq (Query.compare less a b) (Query.compare less a b) :=
  ⟨rfl, rfl⟩

end Matched

end Query

namespace Action

variable {σ τ κ ρ ρ' υ υ' : Type} {done : ρ → σ → ρ' → τ → Prop} {stopped : σ → τ → Prop} {s : σ} {t : τ}

/-- Two operations match that make the same comparisons and write the same
    notes: `done` holds of their answers and the states left, or `stopped` of
    the states in which they met with the same fault. -/
structure Matched (a : Action σ κ ρ) (b : Action τ κ ρ') (s : σ) (t : τ) (done : ρ → σ → ρ' → τ → Prop)
    (stopped : σ → τ → Prop) : Prop where
  asked : (a.run s).asked = (b.run t).asked
  notes : (a.run s).notes = (b.run t).notes
  left : match (a.run s).answer, (b.run t).answer with
    | .ok x, .ok y => done x (a.run s).state y (b.run t).state
    | .error fault, .error other => fault = other ∧ stopped (a.run s).state (b.run t).state
    | _, _ => False

namespace Matched

theorem pure {x : ρ} {y : ρ'} (h : done x s y t) :
    Matched (pure x : Action σ κ ρ) (pure y : Action τ κ ρ') s t done stopped :=
  ⟨rfl, rfl, h⟩

theorem bind {a : Action σ κ ρ} {b : Action τ κ ρ'} {next : ρ → Action σ κ υ} {next' : ρ' → Action τ κ υ'}
    {done : υ → σ → υ' → τ → Prop}
    (h : Matched a b s t (fun x s₁ y t₁ => Matched (next x) (next' y) s₁ t₁ done stopped) stopped) :
    Matched (a >>= next) (b >>= next') s t done stopped := by
  obtain ⟨hasked, hnotes, hleft⟩ := h
  change Matched (Action.bind a next) (Action.bind b next') s t done stopped
  simp only [run] at hasked hnotes hleft
  cases ha : (a s).answer <;> cases hb : (b t).answer <;> simp only [ha, hb] at hleft
  · constructor <;> simp only [run, Action.bind, ha, hb]
    · exact hasked
    · exact hnotes
    · exact hleft
  · constructor <;> simp only [run, Action.bind, ha, hb]
    · exact congr (congrArg _ hasked) hleft.asked
    · exact congr (congrArg _ hnotes) hleft.notes
    · exact hleft.left

theorem mono {a : Action σ κ ρ} {b : Action τ κ ρ'} {done' : ρ → σ → ρ' → τ → Prop} {stopped' : σ → τ → Prop}
    (h : Matched a b s t done stopped) (hdone : ∀ x s₁ y t₁, done x s₁ y t₁ → done' x s₁ y t₁)
    (hstopped : ∀ s₁ t₁, stopped s₁ t₁ → stopped' s₁ t₁) : Matched a b s t done' stopped' := by
  obtain ⟨hasked, hnotes, hleft⟩ := h
  refine ⟨hasked, hnotes, ?_⟩
  cases ha : (a.run s).answer <;> cases hb : (b.run t).answer <;> simp only [ha, hb] at hleft ⊢
  · exact ⟨hleft.1, hstopped _ _ hleft.2⟩
  · exact hdone _ _ _ _ hleft

theorem map {a : Action σ κ ρ} {b : Action τ κ ρ'} {f : ρ → υ} {g : ρ' → υ'} {done : υ → σ → υ' → τ → Prop}
    (h : Matched a b s t (fun x s₁ y t₁ => done (f x) s₁ (g y) t₁) stopped) :
    Matched (f <$> a) (g <$> b) s t done stopped :=
  bind (h.mono (fun _ _ _ _ hdone => pure hdone) fun _ _ hstopped => hstopped)

theorem ask {q : σ → Query κ ρ} {q' : τ → Query κ ρ'}
    (h : Query.Matched (fun x y => done x s y t) (q s) (q' t)) (hstopped : stopped s t) :
    Matched (ask q) (ask q') s t done stopped := by
  unfold Query.Matched at h
  rcases hq : q s with fault | ⟨a, asked⟩ <;> rcases hq' : q' t with fault' | ⟨b, asked'⟩ <;> rw [hq, hq'] at h
  · constructor <;> simp only [run, Action.ask, hq, hq']
    exact ⟨h, hstopped⟩
  · exact h.elim
  · exact h.elim
  · constructor <;> simp only [run, Action.ask, hq, hq']
    · exact h.2
    · exact h.1

theorem ask_ok {q : σ → Query κ ρ} {q' : τ → Query κ ρ'} {R : ρ → ρ' → Prop} {x : ρ}
    (h : Query.Matched R (q s) (q' t)) (hx : (q s).answer = .ok x) (hdone : ∀ y, R x y → done x s y t) :
    Matched (Action.ask q) (Action.ask q') s t done stopped := by
  unfold Query.Matched at h
  rcases hq : q s with fault | ⟨a, asked⟩ <;> rcases hq' : q' t with fault' | ⟨b, asked'⟩ <;> rw [hq, hq'] at h
  · rw [hq] at hx
    cases hx
  · exact h.elim
  · exact h.elim
  · rw [hq, Query.answer_ok, Except.ok.injEq] at hx
    subst hx
    constructor <;> simp only [run, Action.ask, hq, hq']
    · exact h.2
    · exact hdone b h.1

theorem look {view : σ → Except Fault ρ} {view' : τ → Except Fault ρ'}
    (h : RedBlack.Matched (fun x y => done x s y t) (view s) (view' t)) (hstopped : stopped s t) :
    Matched (look view : Action σ κ ρ) (look view') s t done stopped := by
  refine ⟨rfl, rfl, ?_⟩
  simp only [run, Action.look]
  cases hv : view s <;> cases hv' : view' t <;> rw [hv, hv'] at h
  · exact ⟨h, hstopped⟩
  · exact h
  · exact h
  · exact h

theorem look_ok {view : σ → Except Fault ρ} {view' : τ → Except Fault ρ'} {x : ρ} {y : ρ'} (hx : view s = .ok x)
    (hy : view' t = .ok y) (h : done x s y t) :
    Matched (Action.look view : Action σ κ ρ) (Action.look view') s t done stopped := by
  refine ⟨rfl, rfl, ?_⟩
  simp only [run, Action.look, hx, hy]
  exact h

theorem step_ok {change : σ → Except Fault (ρ × σ)} {change' : τ → Except Fault (ρ' × τ)} {x : ρ} {y : ρ'}
    {s₁ : σ} {t₁ : τ} (hx : change s = .ok (x, s₁)) (hy : change' t = .ok (y, t₁)) (h : done x s₁ y t₁) :
    Matched (step change : Action σ κ ρ) (step change') s t done stopped := by
  constructor <;> simp only [run, step, hx, hy]
  exact h

theorem step {change : σ → Except Fault (ρ × σ)} {change' : τ → Except Fault (ρ' × τ)}
    (h : RedBlack.Matched (fun x y => done x.1 x.2 y.1 y.2) (change s) (change' t)) (hstopped : stopped s t) :
    Matched (step change : Action σ κ ρ) (Action.step change') s t done stopped := by
  cases hx : change s <;> cases hy : change' t <;> rw [hx, hy] at h
  · constructor <;> simp only [run, Action.step, hx, hy]
    exact ⟨h, hstopped⟩
  · exact h.elim
  · exact h.elim
  · exact step_ok hx hy h

theorem note {n : Note} {done : Unit → σ → Unit → τ → Prop} (h : done () s () t) :
    Matched (note n : Action σ κ Unit) (Action.note n) s t done stopped :=
  ⟨rfl, rfl, h⟩

theorem fail {fault : Fault} (h : stopped s t) :
    Matched (fail fault : Action σ κ ρ) (Action.fail fault : Action τ κ ρ') s t done stopped :=
  ⟨rfl, rfl, rfl, h⟩

/-- What is known of the states left however two operations end, beside what is
    known of their answers. -/
theorem answer {a : Action σ κ ρ} {b : Action τ κ ρ'} {R : σ → τ → ρ → ρ' → Prop} {left : σ → τ → Prop}
    (h : Matched a b s t (fun x s₁ y t₁ => R s₁ t₁ x y ∧ left s₁ t₁) left) :
    RedBlack.Matched (R (a.run s).state (b.run t).state) (a.run s).answer (b.run t).answer ∧
      left (a.run s).state (b.run t).state := by
  have hleft := h.left
  cases ha : (a.run s).answer <;> cases hb : (b.run t).answer <;> simp only [ha, hb] at hleft
  · exact hleft
  · exact hleft

end Matched

end Action

end RedBlack
