import RedBlack.Proofs.Tree.Unhindered

namespace RedBlack

/-- What an operation comes to that is refused over a position of another tree:
    the state is as it was, nothing was compared, and nothing was written to the
    log. As the store is part of the state, and may keep a record of its calls,
    no slot was asked for. -/
def Outcome.refused {σ κ ρ : Type} (s : σ) : Outcome σ κ ρ where
  state := s
  answer := .error .foreignPosition

namespace Tree

variable {α κ ε ρ υ : Type} {key : α → κ}

open RedBlack.Action

variable {origin t : Tree key} {p : Position}

/-- However the operation ends, it leaves a later state of the tree that it
    found. It is not refused over a position of another tree, and what it
    answers is good. -/
def Stays (origin : Tree key) (good : ρ → Prop) (op : Op key ρ) : Prop :=
  ∀ t : Tree key, t.Continues origin → op.wp (fun x u => u.Continues origin ∧ good x)
    (fun fault u => u.Continues origin ∧ fault ≠ .foreignPosition) t

namespace Stays

variable {good : ρ → Prop} {good' : υ → Prop} {op : Op key ρ}

theorem pure {x : ρ} (h : good x) : Stays origin good (Pure.pure x) :=
  fun _ ht => ⟨ht, h⟩

theorem fail {fault : Fault} (h : fault ≠ .foreignPosition) : Stays origin good (.fail fault) :=
  fun _ ht => ⟨ht, h⟩

theorem bind {next : ρ → Op key υ} (h : Stays origin good op) (hnext : ∀ x, good x → Stays origin good' (next x)) :
    Stays origin good' (op >>= next) := by
  intro t ht
  rw [wp_bind]
  exact wp_mono (h t ht) (fun x u hdone => hnext x hdone.2 u hdone.1) fun _ _ hstopped => hstopped

theorem map (h : Stays origin good op) {f : ρ → υ} (hf : ∀ x, good x → good' (f x)) : Stays origin good' (f <$> op) :=
  h.bind fun x hx => pure (hf x hx)

theorem ask {question : Tree key → Query κ ρ} (h : ∀ t, t.Continues origin → Unrefused good (question t).answer) :
    Stays origin good (.ask question) := by
  intro t ht
  have hanswer := h t ht
  rw [wp_ask]
  split
  · next value heq =>
    rw [heq] at hanswer
    exact ⟨ht, hanswer⟩
  · next fault heq =>
    rw [heq] at hanswer
    exact ⟨ht, hanswer⟩

theorem look {view : Tree key → Except Fault ρ} (h : ∀ t, t.Continues origin → Unrefused good (view t)) :
    Stays origin good (.look view) := by
  rw [look_eq_ask]
  refine ask fun t ht => ?_
  exact (h t ht).lift

theorem step {change : Tree key → Except Fault (ρ × Tree key)}
    (h : ∀ t, t.Continues origin → Unrefused (fun x => x.2.Continues t ∧ good x.1) (change t)) :
    Stays origin good (.step change) := by
  intro t ht
  have hanswer := h t ht
  rw [wp_step]
  split
  · next value after heq =>
    rw [heq] at hanswer
    exact ⟨hanswer.1.trans ht, hanswer.2⟩
  · next fault heq =>
    rw [heq] at hanswer
    exact ⟨ht, hanswer⟩

end Stays

theorem stays_positionOf (slot : Option Slot) : Stays origin (fun p => p.tag = origin.tag) (positionOf slot) :=
  .look fun _ ht => ht.tag

theorem stays_owned (hp : p.tag = origin.tag) : Stays origin (fun _ => True) (owned p) :=
  .look fun _ ht => unhindered_own (hp.trans ht.tag.symm)

theorem stays_successor (slot : Option Slot) : Stays origin (fun _ => True) (.look fun t => t.successor slot) :=
  .look fun _ _ => unhindered_successor slot

theorem stays_allocate : Stays origin (fun _ => True) allocate :=
  .step fun t _ => t.store.unhindered_allocate.bind fun _ _ => ⟨⟨rfl, rfl⟩, trivial⟩

theorem stays_construct (slot : Slot) (item : α) : Stays origin (fun _ => True) (construct slot item) :=
  .step fun t _ => (t.store.unhindered_construct slot item).bind fun _ _ => ⟨⟨rfl, rfl⟩, trivial⟩

theorem stays_giveBack (slot : Slot) : Stays origin (fun _ => True) (giveBack slot) :=
  .step fun t _ => (t.store.unhindered_deallocate slot).bind fun _ _ => ⟨⟨rfl, rfl⟩, trivial⟩

theorem stays_release (slot : Slot) : Stays origin (fun _ => True) (release slot) := by
  refine .step fun t _ => (t.store.unhindered_deallocate slot).bind fun answer _ => ?_
  obtain ⟨_ | item, store⟩ := answer
  · simp [Unrefused]
  · exact ⟨⟨rfl, rfl⟩, trivial⟩

theorem stays_modify (hp : p.tag = origin.tag) (change : α → α) :
    Stays origin (fun _ => True) (modify p change) := by
  refine .step fun t ht => (unhindered_own (hp.trans ht.tag.symm)).bind fun slot _ => ?_
  cases slot with
  | none => exact ⟨.refl t, trivial⟩
  | some slot =>
    refine (unhindered_itemAt slot).bind fun item _ => ?_
    exact (t.store.unhindered_write slot (change item)).bind fun _ _ => ⟨⟨rfl, rfl⟩, trivial⟩

theorem stays_hang (slot : Slot) (place : Place) : Stays origin (fun p => p.tag = origin.tag) (hang slot place) := by
  refine .step fun t ht => ?_
  refine Unrefused.bind (x := t.attach slot place) ?_ fun u hu => ⟨hu, hu.tag.trans ht.tag⟩
  exact (t.shape.unhindered_attach slot place).bind fun _ _ => ⟨rfl, rfl⟩

theorem stays_eraseSlot (slot : Slot) : Stays origin (fun _ => True) (eraseSlot slot) := by
  have hdetach (t : Tree key) : Unrefused (fun u : Tree key => u.Continues t) (t.detach slot) :=
    (t.shape.unhindered_unlink slot).bind fun _ _ => ⟨rfl, rfl⟩
  have hunlink : Stays origin (fun _ => True) (.step fun t => do
      let t ← t.detach slot
      return ((), { t with size := ← checkedSub t.size 1 })) :=
    .step fun t _ => (hdetach t).bind fun u hu =>
      (unhindered_checkedSub u.size 1).bind fun _ _ => ⟨⟨hu.less, hu.tag⟩, trivial⟩
  exact hunlink.bind fun _ _ => stays_release slot

theorem stays_erase (hp : p.tag = origin.tag) :
    Stays origin (fun answer => answer.2.tag = origin.tag) (erase p) := by
  refine (stays_owned hp).bind fun slot _ => ?_
  cases slot with
  | none => exact .fail (by simp)
  | some slot =>
    refine (stays_successor (some slot)).bind fun after _ => ?_
    exact (stays_eraseSlot slot).bind fun item _ => (stays_positionOf after).bind fun q hq => .pure hq

theorem stays_remove (hp : p.tag = origin.tag) : Stays origin (fun _ => True) (remove p) :=
  (stays_erase hp).bind fun _ _ => .pure trivial

theorem stays_clear : Stays origin (fun _ => True) clear := by
  have hempty : Stays origin (fun _ => True) (.step fun t => do
      let store ← t.shape.releaseAll t.store
      return ((), { t with shape := .nil, leftmost := none, rightmost := none, size := 0, store })) :=
    .step fun t _ => (t.shape.unhindered_releaseAll t.store).bind fun _ _ => ⟨⟨rfl, rfl⟩, trivial⟩
  have hsize : Stays origin (fun _ => True) (.look fun t => .ok t.size) := .look fun _ _ => trivial
  have hnote (n : Note) : Stays origin (fun _ => True) (.note n) := fun _ ht => ⟨ht, trivial⟩
  refine hsize.bind fun size _ => ?_
  dsimp only
  split
  · exact (hnote _).bind fun _ _ => hempty
  · exact hempty

theorem stays_eraseUpTo (last : Option Slot) (fuel : Nat) (slot : Option Slot) :
    Stays origin (fun _ => True) (eraseUpTo last fuel slot) := by
  have hend : Stays origin (fun _ => True) (if last = none then return () else .fail .reversedRange) := by
    split
    · exact .pure trivial
    · exact .fail (by simp)
  induction fuel generalizing slot with
  | zero =>
    cases slot with
    | none => rwa [eraseUpTo]
    | some slot => exact .pure trivial
  | succ fuel ih =>
    cases slot with
    | none => rwa [eraseUpTo]
    | some slot =>
      rw [eraseUpTo]
      split
      · exact .pure trivial
      · refine (stays_successor (some slot)).bind fun after _ => ?_
        exact (stays_eraseSlot slot).bind fun _ _ => ih after

theorem stays_eraseRange {first last : Position} (h : origin.Owns [first, last]) :
    Stays origin (fun p => p.tag = origin.tag) (eraseRange first last) := by
  have hlast : last.tag = origin.tag := h last (by simp)
  have hlook : Stays origin (fun _ => True) (.look .ok) := .look fun _ _ => trivial
  refine (stays_owned (h first (by simp))).bind fun lower _ => ?_
  refine (stays_owned hlast).bind fun upper _ => ?_
  refine hlook.bind fun t _ => ?_
  split
  · exact stays_clear.bind fun _ _ => stays_positionOf none
  · exact (stays_eraseUpTo upper _ lower).bind fun _ _ => .pure hlast

theorem stays_eraseKey (k : κ) : Stays origin (fun _ => True) (eraseKey k) := by
  have hrange : Stays origin (fun range => origin.Owns [range.1, range.2]) (.ask fun t => t.equalRange k) := by
    refine .ask fun t ht => ?_
    exact (t.unrefused_equalRange k).mono fun _ => ht.owns_iff.mp
  have hsize : Stays origin (fun _ => True) (.look fun t => .ok t.size) := .look fun _ _ => trivial
  refine hrange.bind fun range howns => hsize.bind fun before _ => ?_
  exact (stays_eraseRange howns).bind fun _ _ => .look fun t _ => unhindered_checkedSub before t.size

theorem stays_popFirst : Stays origin (fun _ => True) popFirst := by
  have hlook : Stays origin (fun _ => True) (.look .ok) := .look fun _ _ => trivial
  refine hlook.bind fun t _ => ?_
  split
  · exact .pure trivial
  · have hends : Stays origin (fun _ => True) (.look fun t => dereference t.leftmost) :=
      .look fun _ _ => unhindered_dereference _
    exact hends.bind fun slot _ => (stays_eraseSlot slot).bind fun _ _ => .pure trivial

theorem stays_popLast : Stays origin (fun _ => True) popLast := by
  have hlook : Stays origin (fun _ => True) (.look .ok) := .look fun _ _ => trivial
  refine hlook.bind fun t _ => ?_
  split
  · exact .pure trivial
  · have hends : Stays origin (fun _ => True) (.look fun t => dereference t.rightmost) :=
      .look fun _ _ => unhindered_dereference _
    exact hends.bind fun slot _ => (stays_eraseSlot slot).bind fun _ _ => .pure trivial

theorem stays_insertAt (item : α) (place : Place) :
    Stays origin (fun answer => ∀ p, answer = .ok p → p.tag = origin.tag) (insertAt item place) := by
  refine stays_allocate.bind fun answer _ => ?_
  cases answer with
  | error error => exact .pure nofun
  | ok slot =>
    refine (stays_construct slot item).bind fun _ _ => (stays_hang slot place).bind fun p hp => .pure ?_
    rintro _ ⟨⟩
    exact hp

section Searches

variable {search : Tree key → κ → Query κ Vacancy} {find : Tree key → κ → Query κ Place}
  (hsearch : ∀ t k, Unhindered (search t k).answer) (hfind : ∀ t k, Unhindered (find t k).answer)

include hsearch in
theorem stays_insertUniqueBy (item : α) :
    Stays origin (fun answer => ∀ p, answer = .ok p → p.1.tag = origin.tag) (insertUniqueBy search item) := by
  refine Stays.bind (.ask fun t _ => hsearch t (key item)) fun vacancy _ => ?_
  cases vacancy with
  | occupied slot =>
    refine (stays_positionOf (some slot)).bind fun p hp => .pure ?_
    rintro _ ⟨⟩
    exact hp
  | vacant place =>
    refine (stays_insertAt item place).bind fun answer hanswer => .pure ?_
    cases answer with
    | error error => exact nofun
    | ok p =>
      rintro _ ⟨⟩
      exact hanswer p rfl

include hfind in
theorem stays_insertEqualBy (item : α) :
    Stays origin (fun answer => ∀ p, answer = .ok p → p.tag = origin.tag) (insertEqualBy find item) :=
  Stays.bind (.ask fun t _ => hfind t (key item)) fun place _ => stays_insertAt item place

theorem stays_buildNode (build : Unit → Except ε α) : Stays origin (fun _ => True) (buildNode build) := by
  refine stays_allocate.bind fun answer _ => ?_
  cases answer with
  | error error => exact .pure trivial
  | ok slot =>
    dsimp only
    obtain ⟨calls, result⟩ := Built.call build 0
    cases result with
    | error failure => exact (stays_giveBack slot).bind fun _ _ => .pure trivial
    | ok item => exact (stays_construct slot item).bind fun _ _ => .pure trivial

include hsearch in
theorem stays_insertUniqueWithBy (build : Unit → Except ε α) :
    Stays origin (fun answer => ∀ p, answer.result = .ok p → p.1.tag = origin.tag)
      (insertUniqueWithBy search build) := by
  refine (stays_buildNode build).bind fun built _ => ?_
  split
  · exact .pure nofun
  · next slot item _ =>
    refine Stays.bind (.ask fun t _ => hsearch t (key item)) fun vacancy _ => ?_
    cases vacancy with
    | occupied other =>
      refine (stays_release slot).bind fun _ _ => (stays_positionOf (some other)).bind fun p hp => .pure ?_
      rintro _ ⟨⟩
      exact hp
    | vacant place =>
      refine (stays_hang slot place).bind fun p hp => .pure ?_
      rintro _ ⟨⟩
      exact hp

include hfind in
theorem stays_insertEqualWithBy (build : Unit → Except ε α) :
    Stays origin (fun answer => ∀ p, answer.result = .ok p → p.tag = origin.tag) (insertEqualWithBy find build) := by
  refine (stays_buildNode build).bind fun built _ => ?_
  split
  · exact .pure nofun
  · next slot item _ =>
    refine Stays.bind (.ask fun t _ => hfind t (key item)) fun place _ => ?_
    refine (stays_hang slot place).bind fun p hp => .pure ?_
    rintro _ ⟨⟩
    exact hp

end Searches

/-- A request at positions of its tree is not refused, and gives positions of
    the tree. -/
theorem stays_command (c : Command α κ ε) (h : origin.Owns c.positions) :
    Stays origin (fun reply => origin.Owns reply.positions) c.run := by
  have hnone : origin.Owns [] := by simp [Owns]
  have hone {p : Position} (hp : p.tag = origin.tag) : origin.Owns [p] := by simpa [Owns] using hp
  have hunique {answer : Except AllocError (Position × Bool)} (hp : ∀ p, answer = .ok p → p.1.tag = origin.tag) :
      origin.Owns (Reply.unique answer : Reply α ε).positions := by
    cases answer with
    | error error => exact hnone
    | ok p => exact hone (hp p rfl)
  have hequal {answer : Except AllocError Position} (hp : ∀ p, answer = .ok p → p.tag = origin.tag) :
      origin.Owns (Reply.equal answer : Reply α ε).positions := by
    cases answer with
    | error error => exact hnone
    | ok p => exact hone (hp p rfl)
  have huniqueWith {answer : Built ε (Position × Bool)} (hp : ∀ p, answer.result = .ok p → p.1.tag = origin.tag) :
      origin.Owns (Reply.uniqueWith answer : Reply α ε).positions := by
    obtain ⟨calls, failure | p⟩ := answer
    · exact hnone
    · exact hone (hp p rfl)
  have hequalWith {answer : Built ε Position} (hp : ∀ p, answer.result = .ok p → p.tag = origin.tag) :
      origin.Owns (Reply.equalWith answer : Reply α ε).positions := by
    obtain ⟨calls, failure | p⟩ := answer
    · exact hnone
    · exact hone (hp p rfl)
  cases c with
  | insertUnique item => exact (stays_insertUniqueBy (fun t => t.unhindered_uniquePlace) item).map fun _ => hunique
  | insertEqual item => exact (stays_insertEqualBy (fun t => t.unhindered_equalPlace .upper) item).map fun _ => hequal
  | insertUniqueHint hint item =>
    refine ((stays_owned (h hint (by simp [Command.positions]))).bind fun slot _ => ?_).map fun _ => hunique
    exact stays_insertUniqueBy (fun t => t.unhindered_hintedUniquePlace slot) item
  | insertEqualHint hint item =>
    refine ((stays_owned (h hint (by simp [Command.positions]))).bind fun slot _ => ?_).map fun _ => hequal
    exact stays_insertEqualBy (fun t => t.unhindered_hintedEqualPlace slot) item
  | insertUniqueWith build =>
    exact (stays_insertUniqueWithBy (fun t => t.unhindered_uniquePlace) build).map fun _ => huniqueWith
  | insertEqualWith build =>
    exact (stays_insertEqualWithBy (fun t => t.unhindered_equalPlace .upper) build).map fun _ => hequalWith
  | insertUniqueHintWith hint build =>
    refine ((stays_owned (h hint (by simp [Command.positions]))).bind fun slot _ => ?_).map fun _ => huniqueWith
    exact stays_insertUniqueWithBy (fun t => t.unhindered_hintedUniquePlace slot) build
  | insertEqualHintWith hint build =>
    refine ((stays_owned (h hint (by simp [Command.positions]))).bind fun slot _ => ?_).map fun _ => hequalWith
    exact stays_insertEqualWithBy (fun t => t.unhindered_hintedEqualPlace slot) build
  | find k =>
    refine Stays.map (.ask fun t ht => ?_) fun _ => hone
    exact ht.tag ▸ t.unrefused_find k
  | contains k => exact Stays.map (.ask fun t _ => t.unhindered_contains k) fun _ _ => hnone
  | lowerBound k =>
    refine Stays.map (.ask fun t ht => ?_) fun _ => hone
    exact ht.tag ▸ t.unrefused_bound .lower k
  | upperBound k =>
    refine Stays.map (.ask fun t ht => ?_) fun _ => hone
    exact ht.tag ▸ t.unrefused_bound .upper k
  | erase p => exact (stays_erase (h p (by simp [Command.positions]))).map fun _ => hone
  | remove p => exact (stays_remove (h p (by simp [Command.positions]))).map fun _ _ => hnone
  | eraseRange first last => exact (stays_eraseRange h).map fun _ => hone
  | eraseKey k => exact (stays_eraseKey k).map fun _ _ => hnone
  | popFirst => exact stays_popFirst.map fun _ _ => hnone
  | popLast => exact stays_popLast.map fun _ _ => hnone
  | clear => exact stays_clear.map fun _ _ => hnone

theorem stays_request (r : Request α κ ε) (h : origin.Owns r.positions) :
    Stays origin (fun x : Response key ε => origin.Owns x.positions) r.run := by
  cases r with
  | command c => exact (stays_command c h).map fun _ => id
  | inquiry q =>
    refine Stays.map (.ask fun t ht => ?_) fun _ => id
    exact (t.unrefused_inquiry q (ht.owns_iff.mpr h)).mono fun _ => ht.owns_iff.mp

theorem run_refused_bind {op : Op key ρ} (h : op.run t = .refused t) (next : ρ → Op key υ) :
    (op >>= next).run t = .refused t := by
  have hop : op t = .refused t := h
  change Action.bind op next t = _
  simp [Action.bind, hop, Outcome.refused]

theorem own_foreign (hp : p.tag ≠ t.tag) : t.own p = .error .foreignPosition :=
  if_neg hp

theorem run_owned_foreign (hp : p.tag ≠ t.tag) : (owned p).run t = .refused t := by
  change { state := t, answer := t.own p : Outcome (Tree key) κ (Option Slot) } = _
  rw [own_foreign hp]
  rfl

theorem own_eq (hp : p.tag = t.tag) : t.own p = .ok p.slot :=
  if_pos hp

theorem run_owned_bind (hp : p.tag = t.tag) (next : Option Slot → Op key ρ) :
    (owned p >>= next).run t = (next p.slot).run t := by
  change Action.bind (owned p) next t = next p.slot t
  simp [Action.bind, owned, look, own_eq hp]

/-- A request that names a position of another tree is refused, and the tree and
    its store are as they were. Also a store that records its calls shows none,
    and an item is built only in a slot that was handed out before. -/
theorem command_refused {c : Command α κ ε} (h : ¬ t.Owns c.positions) :
    (c.run : Op key (Reply α ε)).run t = .refused t := by
  have hone {p : Position} (hp : ¬ t.Owns [p]) : p.tag ≠ t.tag := by simpa [Owns] using hp
  have hnone : t.Owns [] := by simp [Owns]
  cases c with
  | insertUniqueHint hint _ | insertEqualHint hint _ | insertUniqueHintWith hint _ | insertEqualHintWith hint _ =>
    exact run_refused_bind (run_refused_bind (run_owned_foreign (hone h)) _) _
  | erase p => exact run_refused_bind (run_refused_bind (run_owned_foreign (hone h)) _) _
  | remove p => exact run_refused_bind (run_refused_bind (run_refused_bind (run_owned_foreign (hone h)) _) _) _
  | eraseRange first last =>
    refine run_refused_bind ?_ _
    by_cases hfirst : first.tag = t.tag
    · have hlast : last.tag ≠ t.tag := by simpa [Owns, Command.positions, hfirst] using h
      rw [eraseRange, run_owned_bind hfirst]
      exact run_refused_bind (run_owned_foreign hlast) _
    · exact run_refused_bind (run_owned_foreign hfirst) _
  | _ => exact absurd hnone h

theorem modify_refused (hp : p.tag ≠ t.tag) (change : α → α) : (modify p change).run t = .refused t := by
  simp only [modify, run, Action.step, own_foreign hp, error_bind]
  rfl

theorem inquiry_refused {q : Inquiry α κ ε} (h : ¬ t.Owns q.positions) :
    (q.answer t : Query κ (Finding key ε)) = .error .foreignPosition := by
  have hone {p : Position} (hp : ¬ t.Owns [p]) : t.own p = .error .foreignPosition :=
    own_foreign (by simpa [Owns] using hp)
  have hnone : t.Owns [] := by simp [Owns]
  cases q with
  | get p => simp only [Inquiry.answer, get, hone h]; rfl
  | next p => simp only [Inquiry.answer, next, hone h]; rfl
  | prev p => simp only [Inquiry.answer, prev, hone h]; rfl
  | walkRange first last script =>
    by_cases hfirst : first.tag = t.tag
    · have hlast : last.tag ≠ t.tag := by simpa [Owns, Inquiry.positions, hfirst] using h
      simp only [Inquiry.answer, walkRange, own_foreign hlast, own_eq hfirst]
      rfl
    · simp only [Inquiry.answer, walkRange, own_foreign hfirst]
      rfl
  | _ => exact absurd hnone h

theorem request_refused {r : Request α κ ε} (h : ¬ t.Owns r.positions) :
    (r.run : Op key (Response key ε)).run t = .refused t := by
  cases r with
  | command c => exact run_refused_bind (command_refused h) _
  | inquiry q =>
    refine run_refused_bind ?_ _
    have hquestion : (q.answer t : Query κ (Finding key ε)) = .error .foreignPosition := inquiry_refused h
    change Action.ask q.answer t = .refused t
    rw [Action.ask, hquestion]
    rfl

/-- The positions that the outcome of a request shows. -/
def shown : Except Fault (Response key ε) → List Position
  | .ok answer => answer.positions
  | .error _ => []

/-- Whatever positions a request names, it leaves a later state of its tree and
    shows positions of that tree only. -/
theorem request_leaves (r : Request α κ ε) (t : Tree key) :
    (r.run.run t).state.Continues t ∧ t.Owns (shown (r.run.run t).answer) := by
  by_cases h : t.Owns r.positions
  · have hstays := stays_request r h t (.refl t)
    rw [wp] at hstays
    split at hstays
    · next heq => rwa [heq]
    · next heq =>
      rw [heq]
      exact ⟨hstays.1, by simp [Owns, shown]⟩
  · rw [request_refused h]
    exact ⟨.refl t, by simp [Owns, shown, Outcome.refused]⟩

theorem modify_leaves (p : Position) (change : α → α) (t : Tree key) :
    ((modify p change).run t).state.Continues t := by
  by_cases hp : p.tag = t.tag
  · have hleft := stays_modify hp change t (.refl t)
    exact state_of_wp (wp_mono hleft (fun _ _ hdone => hdone.1) fun _ _ hstopped => hstopped.1)
  · rw [modify_refused hp]
    exact .refl t

theorem modify_foreign_iff {change : α → α} :
    ((modify p change).run t).answer = .error .foreignPosition ↔ p.tag ≠ t.tag := by
  constructor
  · intro hanswer hp
    have hstays := stays_modify hp change t (.refl t)
    rw [wp, hanswer] at hstays
    exact hstays.2 rfl
  · intro hp
    rw [modify_refused hp]
    rfl

/-- A request is refused over a position of another tree exactly if it names
    one, whatever has become of the tree and of the items that its positions
    named. -/
theorem request_foreign_iff {r : Request α κ ε} :
    (r.run.run t).answer = .error .foreignPosition ↔ ¬ t.Owns r.positions := by
  constructor
  · intro hanswer h
    have hstays := stays_request r h t (.refl t)
    rw [wp, hanswer] at hstays
    exact hstays.2 rfl
  · intro h
    rw [request_refused h]
    rfl

end Tree

end RedBlack
