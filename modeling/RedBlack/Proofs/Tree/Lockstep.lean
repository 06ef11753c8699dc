import RedBlack.Proofs.Tree.Lockstep.Removal

namespace RedBlack

namespace Tree

variable {α κ ε : Type} {key : α → κ} {K : Equiv.Perm Slot → Store α → Store α → Prop} {σ : Equiv.Perm Slot}
  {t u : Tree key} {entries : List (Slot × α)} {o o' : Outside α}

/-- A request and the same one to another tree are answered alike: with answers
    that are mirror images or with the same fault, after the same comparisons
    and notes. -/
structure AnswerAlike (t u : Tree key) (r : Request α κ ε) : Prop where
  answer : Matched (Response.Mirrors (r.run.run t).state ((r.move (t.counterpart u)).run.run u).state)
    (r.run.run t).answer ((r.move (t.counterpart u)).run.run u).answer
  asked : (r.run.run t).asked = ((r.move (t.counterpart u)).run.run u).asked
  notes : (r.run.run t).notes = ((r.move (t.counterpart u)).run.run u).notes

namespace Coupled

/-- Two trees that answer, up to their slots, the same to a question say so in
    their replies. -/
theorem asked {ρ : Type} {q q' : Tree key → Query κ ρ} {f : ρ → Reply α ε} (h : t.Coupled K σ u entries o o')
    (hq : Query.Matched (fun x y => (f x).Mirrors t u (f y)) (q t) (q' u)) :
    Action.Matched (f <$> .ask q : Op key (Reply α ε)) (f <$> .ask q') t u
      (fun x t₁ y u₁ => x.Mirrors t₁ u₁ y ∧ Follows K o o' t u t₁ u₁) (Follows K o o' t u) :=
  .map (.ask (hq.mono fun _ _ hxy => ⟨hxy, h.follows⟩) h.follows)

/-- Two trees that come to the same answer, which names no position, say so in
    their replies. -/
theorem told {ρ : Type} {a b : Op key ρ} {f : ρ → Reply α ε}
    (hab : Action.Matched a b t u (fun x t₁ y u₁ => y = x ∧ Follows K o o' t u t₁ u₁) (Follows K o o' t u))
    (hpositions : ∀ x, (f x).positions = []) (hmove : ∀ place x, (f x).move place = f x) :
    Action.Matched (f <$> a) (f <$> b) t u (fun x t₁ y u₁ => x.Mirrors t₁ u₁ y ∧ Follows K o o' t u t₁ u₁)
      (Follows K o o' t u) := by
  refine .map (hab.mono ?_ fun _ _ hstopped => hstopped)
  rintro _ t₁ x u₁ ⟨rfl, hfollows⟩
  exact ⟨.plain (hpositions x) (hmove _ x), hfollows⟩

/-- Every command at positions of the tree comes to the same in the other tree:
    the answers are mirror images, the comparisons and notes are the same, and
    the trees left differ in their slots only. -/
theorem command (hK : Store.Linked K) (h : t.Coupled K σ u entries o o') (c : Command α κ ε)
    (hlive : ∀ p ∈ c.positions, t.LiveOrEnd p) (hroom : c.Inserts → (t.store.HasRoom ↔ u.store.HasRoom)) :
    Action.Matched (c.run : Op key (Reply α ε)) (c.move (t.counterpart u)).run t u
      (fun x t₁ y u₁ => x.Mirrors t₁ u₁ y ∧ Follows K o o' t u t₁ u₁) (Follows K o o' t u) := by
  have hpairs (p : Position) (hp : p ∈ c.positions) := h.pairs_counterpart (hlive p hp)
  have hposition {p q : Position} (hpq : t.Pairs σ u p q) :
      (Reply.position p : Reply α ε).Mirrors t u (.position q) :=
    h.mirrors_at hpq (fun _ => rfl) fun _ _ => rfl
  cases c with
  | insertUnique item =>
    exact .map (h.insertUniqueBy hK (hroom trivial) item (findsUnique_plain entries)
      (searchesAlike_unique K σ entries))
  | insertEqual item =>
    exact .map (h.insertEqualBy hK (hroom trivial) item (findsEqual_plain entries .upper)
      (searchesAlike_equal K σ entries .upper))
  | insertUniqueHint hint item =>
    have hhint := hpairs hint (by simp [Command.positions])
    have hmem := h.left.slot_mem (hlive hint (by simp [Command.positions]))
    exact .map (owned_bind hhint (h.insertUniqueBy hK (hroom trivial) item (findsUnique_hinted hmem)
      (searchesAlike_hintedUnique h hhint.2.2)))
  | insertEqualHint hint item =>
    have hhint := hpairs hint (by simp [Command.positions])
    have hmem := h.left.slot_mem (hlive hint (by simp [Command.positions]))
    exact .map (owned_bind hhint (h.insertEqualBy hK (hroom trivial) item (findsEqual_hinted hmem)
      (searchesAlike_hintedEqual h hhint.2.2)))
  | insertUniqueWith build =>
    exact .map (h.insertUniqueWithBy hK (hroom trivial) build (findsUnique_plain entries)
      (searchesAlike_unique K σ entries))
  | insertEqualWith build =>
    exact .map (h.insertEqualWithBy hK (hroom trivial) build (findsEqual_plain entries .upper)
      (searchesAlike_equal K σ entries .upper))
  | insertUniqueHintWith hint build =>
    have hhint := hpairs hint (by simp [Command.positions])
    have hmem := h.left.slot_mem (hlive hint (by simp [Command.positions]))
    exact .map (owned_bind hhint (h.insertUniqueWithBy hK (hroom trivial) build (findsUnique_hinted hmem)
      (searchesAlike_hintedUnique h hhint.2.2)))
  | insertEqualHintWith hint build =>
    have hhint := hpairs hint (by simp [Command.positions])
    have hmem := h.left.slot_mem (hlive hint (by simp [Command.positions]))
    exact .map (owned_bind hhint (h.insertEqualWithBy hK (hroom trivial) build (findsEqual_hinted hmem)
      (searchesAlike_hintedEqual h hhint.2.2)))
  | find k => exact h.asked ((h.find k).mono fun _ _ => hposition)
  | contains k =>
    refine h.asked ((h.contains k).mono ?_)
    rintro answer _ rfl
    exact .plain rfl rfl
  | lowerBound k => exact h.asked ((h.lowerBound k).mono fun _ _ => hposition)
  | upperBound k => exact h.asked ((h.upperBound k).mono fun _ _ => hposition)
  | erase p => exact .map (h.erase hK (hpairs p (by simp [Command.positions])))
  | remove p =>
    exact told (h.remove hK (hpairs p (by simp [Command.positions]))) (fun _ => rfl) fun _ _ => rfl
  | eraseRange first last =>
    have hfirst := hpairs first (by simp [Command.positions])
    have hlast := hpairs last (by simp [Command.positions])
    exact .map (h.eraseRange hK hfirst hlast)
  | eraseKey k => exact told (h.eraseKey hK k) (fun _ => rfl) fun _ _ => rfl
  | popFirst => exact told (h.popFirst hK) (fun _ => rfl) fun _ _ => rfl
  | popLast => exact told (h.popLast hK) (fun _ => rfl) fun _ _ => rfl
  | clear =>
    refine told ((h.clear hK).mono ?_ fun _ _ hstopped => hstopped) (fun _ => rfl) fun _ _ => rfl
    rintro _ t₁ _ u₁ ⟨ht₁, hu₁, h₁⟩
    exact ⟨rfl, ht₁, hu₁, σ, [], h₁⟩

/-- Every request at positions of the tree is answered alike, and leaves two
    trees that differ in their slots only. -/
theorem request (hK : Store.Linked K) (h : t.Coupled K σ u entries o o') (r : Request α κ ε) (hlive : r.OnLive t)
    (hroom : r.Inserts → (t.store.HasRoom ↔ u.store.HasRoom)) :
    AnswerAlike t u r ∧ Follows K o o' t u (r.run.run t).state ((r.move (t.counterpart u)).run.run u).state := by
  have hmatched : Action.Matched (r.run : Op key (Response key ε)) (r.move (t.counterpart u)).run t u
      (fun x t₁ y u₁ => x.Mirrors t₁ u₁ y ∧ Follows K o o' t u t₁ u₁) (Follows K o o' t u) := by
    cases r with
    | command c =>
      refine .map ((h.command hK c hlive hroom).mono ?_ fun _ _ hstopped => hstopped)
      rintro x t₁ _ u₁ ⟨⟨hx, rfl⟩, hfollows⟩
      exact ⟨⟨hx, rfl⟩, hfollows⟩
    | inquiry q =>
      refine .map (.ask ((h.inquiry q hlive).mono ?_) h.follows)
      rintro x _ ⟨hx, rfl⟩
      exact ⟨⟨hx, rfl⟩, h.follows⟩
  obtain ⟨hanswer, hfollows⟩ := hmatched.answer
  exact ⟨⟨hanswer, hmatched.asked, hmatched.notes⟩, hfollows⟩

end Coupled

end Tree

end RedBlack
