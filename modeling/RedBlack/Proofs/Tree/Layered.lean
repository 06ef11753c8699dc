import RedBlack.Proofs.Store.Layers
import RedBlack.Proofs.Tree.Inquiries

namespace RedBlack

namespace Store

variable {α : Type} {R S : Store α → Store α → Prop}

/-- Two stores that stay together: an item put into both, or a slot taken back
    by both, leaves them related. -/
structure Tied (R : Store α → Store α → Prop) : Prop where
  base : ∀ s t, R s t → t.base = s.base
  construct : ∀ s t slot item, R s t → Matched R (construct slot item s) (construct slot item t)
  deallocate : ∀ s t slot, R s t →
    Matched (fun x y => y.1 = x.1 ∧ R x.2 y.2) (deallocate slot s) (deallocate slot t)

/-- One slot asked of both stores is answered alike. -/
def Granting (R S : Store α → Store α → Prop) : Prop :=
  ∀ s t, R s t → Matched (fun x y => y.1 = x.1 ∧ S x.2 y.2) (Store.allocate s) (Store.allocate t)

end Store

namespace Tree

open RedBlack.Action

variable {α κ ε ρ υ : Type} {key : α → κ} {R S T : Store α → Store α → Prop} {t u : Tree key}

/-- The tree with its store reduced to the arena below all layers. -/
def bare (t : Tree key) : Tree key :=
  { t with store := .arena t.store.base }

/-- The second tree is the first one over a store related to its own. Nothing is
    asked of the trees for that: their links may be broken and positions may be
    of other trees. -/
def Over (R : Store α → Store α → Prop) (t u : Tree key) : Prop :=
  ∃ s, u = { t with store := s } ∧ R t.store s

theorem Over.mono (h : Over R t u) (hle : ∀ s s', R s s' → S s s') : Over S t u := by
  obtain ⟨s, rfl, hs⟩ := h
  exact ⟨s, rfl, hle _ _ hs⟩

/-- What is read off a tree and its arena is the same for both. -/
theorem Over.view_eq (h : Over R t u) (hR : ∀ s s', R s s' → s'.base = s.base) (view : Tree key → ρ)
    (hview : ∀ t : Tree key, view t.bare = view t) : view u = view t := by
  obtain ⟨s, rfl, hs⟩ := h
  rw [← hview t, ← hview { t with store := s }]
  simp only [bare, hR _ _ hs]

/-- Both trees answer an operation alike, and the trees that it leaves are
    related by `S`. A tree reads its store only through the arena below all
    layers. -/
def Steps (R S : Store α → Store α → Prop) (op : Op key ρ) : Prop :=
  ∀ t u : Tree key, Over R t u → Action.Matched op op t u (fun x t₁ y u₁ => y = x ∧ Over S t₁ u₁) (Over S)

namespace Steps

theorem pure (x : ρ) : Steps R R (Pure.pure x : Op key _) :=
  fun _ _ h => .pure ⟨rfl, h⟩

theorem fail (fault : Fault) : Steps R R (.fail fault : Op key ρ) :=
  fun _ _ h => .fail h

theorem note (n : Note) : Steps R R (.note n : Op key _) :=
  fun _ _ h => .note ⟨rfl, h⟩

theorem mono {op : Op key ρ} (h : Steps R S op) (hle : ∀ s s', S s s' → T s s') : Steps R T op :=
  fun _ _ hover => (h _ _ hover).mono (fun _ _ _ _ hdone => ⟨hdone.1, hdone.2.mono hle⟩) fun _ _ hstopped =>
    hstopped.mono hle

theorem bind {op : Op key ρ} {next : ρ → Op key υ} (h : Steps R S op) (hle : ∀ s s', S s s' → T s s')
    (hnext : ∀ x, Steps S T (next x)) : Steps R T (op >>= next) := by
  intro t u hover
  refine .bind ((h t u hover).mono ?_ fun _ _ hstopped => hstopped.mono hle)
  rintro _ t₁ x u₁ ⟨rfl, hover⟩
  exact hnext x _ _ hover

/-- What follows an operation that leaves the stores related as they were. -/
theorem andThen {op : Op key ρ} {next : ρ → Op key υ} (h : Steps R R op) (hle : ∀ s s', R s s' → S s s')
    (hnext : ∀ x, Steps R S (next x)) : Steps R S (op >>= next) :=
  h.bind hle hnext

theorem map {op : Op key ρ} (f : ρ → υ) (h : Steps R S op) : Steps R S (f <$> op) :=
  h.bind (fun _ _ => id) fun x => pure (f x)

theorem ask (hR : ∀ s s', R s s' → s'.base = s.base) {question : Tree key → Query κ ρ}
    (hquestion : ∀ t : Tree key, question t.bare = question t) : Steps R R (.ask question) := by
  intro t u hover
  refine .ask ?_ hover
  rw [hover.view_eq hR question hquestion]
  rcases question t with fault | ⟨x, asked⟩
  · rfl
  · exact ⟨⟨rfl, hover⟩, rfl⟩

theorem look (hR : ∀ s s', R s s' → s'.base = s.base) {view : Tree key → Except Fault ρ}
    (hview : ∀ t : Tree key, view t.bare = view t) : Steps R R (.look view) := by
  intro t u hover
  refine .look ?_ hover
  rw [hover.view_eq hR view hview]
  cases view t with
  | error fault => rfl
  | ok x => exact ⟨rfl, hover⟩

theorem reshape {change : Tree key → Except Fault (ρ × Tree key)}
    (h : ∀ (t : Tree key) (s : Store α),
      change { t with store := s } = (change t).map fun x => (x.1, { x.2 with store := s }))
    (hstore : ∀ t x t₁, change t = .ok (x, t₁) → t₁.store = t.store) : Steps R R (.step change) := by
  rintro t _ ⟨s, rfl, hs⟩
  refine .step ?_ ⟨s, rfl, hs⟩
  rw [h t s]
  cases hrun : change t with
  | error fault => rfl
  | ok x =>
    refine ⟨rfl, s, rfl, ?_⟩
    rw [hstore t x.1 x.2 hrun]
    exact hs

end Steps


section Reading

variable (hR : ∀ s s' : Store α, R s s' → s'.base = s.base)
include hR

theorem steps_positionOf (slot : Option Slot) : Steps R R (positionOf slot : Op key _) :=
  .look hR fun _ => rfl

theorem steps_owned (p : Position) : Steps R R (owned p : Op key _) :=
  .look hR fun _ => rfl

theorem steps_successor (slot : Option Slot) : Steps R R (.look fun t => t.successor slot : Op key _) :=
  .look hR fun t => by cases slot <;> rfl

end Reading

theorem steps_hang (slot : Slot) (place : Place) : Steps R R (hang slot place : Op key _) := by
  refine .reshape ?_ ?_
  · intro t s
    simp only [attach]
    cases t.shape.attach slot place <;> rfl
  · intro t x t₁ hrun
    simp only [attach, bind_eq_ok] at hrun
    obtain ⟨_, ⟨repaired, _, ⟨⟩⟩, ⟨⟩⟩ := hrun
    rfl

section Tied

variable (hR : Store.Tied R)
include hR

theorem steps_construct (slot : Slot) (item : α) : Steps R R (construct slot item : Op key _) := by
  rintro t _ ⟨s, rfl, hs⟩
  refine .step ?_ ⟨s, rfl, hs⟩
  refine (hR.construct _ _ slot item hs).bind ?_
  intro s₁ s₁' hs₁
  exact ⟨rfl, s₁', rfl, hs₁⟩

theorem steps_giveBack (slot : Slot) : Steps R R (giveBack slot : Op key _) := by
  rintro t _ ⟨s, rfl, hs⟩
  refine .step ?_ ⟨s, rfl, hs⟩
  refine (hR.deallocate _ _ slot hs).bind ?_
  rintro ⟨item, s₁⟩ ⟨_, s₁'⟩ ⟨rfl, hs₁⟩
  exact ⟨rfl, s₁', rfl, hs₁⟩

theorem steps_release (slot : Slot) : Steps R R (release slot : Op key _) := by
  rintro t _ ⟨s, rfl, hs⟩
  refine .step ?_ ⟨s, rfl, hs⟩
  refine (hR.deallocate _ _ slot hs).bind ?_
  rintro ⟨_, s₁⟩ ⟨item, s₁'⟩ ⟨rfl, hs₁⟩
  cases item with
  | none => rfl
  | some item => exact ⟨rfl, s₁', rfl, hs₁⟩

theorem steps_eraseSlot (slot : Slot) : Steps R R (eraseSlot slot : Op key _) := by
  refine Steps.andThen (.reshape ?_ ?_) (fun _ _ => id) fun _ => steps_release hR slot
  · intro t s
    simp only [detach]
    cases t.shape.unlink slot with
    | error fault => rfl
    | ok repaired =>
      simp only [ok_bind, except_pure]
      cases checkedSub t.size 1 <;> rfl
  · intro t x t₁ hrun
    simp only [detach, bind_eq_ok] at hrun
    obtain ⟨_, ⟨repaired, _, ⟨⟩⟩, size, _, ⟨⟩⟩ := hrun
    rfl

theorem steps_erase (p : Position) : Steps R R (erase p : Op key _) := by
  refine (steps_owned hR.base p).andThen (fun _ _ => id) fun slot => ?_
  cases slot with
  | none => exact .fail _
  | some slot =>
    refine (steps_successor hR.base _).andThen (fun _ _ => id) fun after => ?_
    exact (steps_eraseSlot hR slot).andThen (fun _ _ => id) fun item =>
      (steps_positionOf hR.base after).andThen (fun _ _ => id) fun next => .pure _

theorem steps_remove (p : Position) : Steps R R (remove p : Op key _) :=
  (steps_erase hR p).andThen (fun _ _ => id) fun _ => .pure _

omit hR in
theorem matched_releaseAll (hR : Store.Tied R) (shape : Shape) {s s' : Store α} (hs : R s s') :
    RedBlack.Matched R (shape.releaseAll s) (shape.releaseAll s') := by
  induction shape generalizing s s' with
  | nil => exact hs
  | node color left slot right ihl ihr =>
    refine (ihr hs).bind fun s₁ s₁' hs₁ => ?_
    refine (hR.deallocate _ _ slot hs₁).bind ?_
    rintro ⟨_, s₂⟩ ⟨item, s₂'⟩ ⟨rfl, hs₂⟩
    cases item with
    | none => rfl
    | some item => exact ihl hs₂

theorem steps_empty : Steps R R (.step fun t => do
    let store ← t.shape.releaseAll t.store
    return ((), { t with shape := .nil, leftmost := none, rightmost := none, size := 0, store }) : Op key _) := by
  rintro t _ ⟨s, rfl, hs⟩
  refine .step ?_ ⟨s, rfl, hs⟩
  refine (matched_releaseAll hR t.shape hs).bind ?_
  intro s₁ s₁' hs₁
  exact ⟨rfl, s₁', rfl, hs₁⟩

theorem steps_clear : Steps R R (clear : Op key _) := by
  refine (Steps.look hR.base fun _ => rfl).andThen (fun _ _ => id) fun size => ?_
  dsimp only
  split
  · exact (Steps.note _).andThen (fun _ _ => id) fun _ => steps_empty hR
  · exact steps_empty hR

theorem steps_eraseUpTo (last : Option Slot) (fuel : Nat) (slot : Option Slot) :
    Steps R R (eraseUpTo last fuel slot : Op key _) := by
  induction fuel generalizing slot with
  | zero =>
    cases slot with
    | none =>
      rw [eraseUpTo]
      split
      · exact .pure ()
      · exact .fail _
    | some slot => exact .pure ()
  | succ fuel ih =>
    cases slot with
    | none =>
      rw [eraseUpTo]
      split
      · exact .pure ()
      · exact .fail _
    | some slot =>
      rw [eraseUpTo]
      split
      · exact .pure ()
      · refine (steps_successor hR.base _).andThen (fun _ _ => id) fun after => ?_
        exact (steps_eraseSlot hR slot).andThen (fun _ _ => id) fun _ => ih after

/-- What follows a look at the tree as a whole, if it depends on no more than
    the arena below the store. -/
theorem steps_looking {next : Tree key → Op key ρ} (hnext : ∀ t, Steps R R (next t))
    (hbare : ∀ t : Tree key, next t.bare = next t) : Steps R R (do next (← .look .ok)) := by
  intro t u hover
  refine .bind (.look ?_ hover)
  change Action.Matched (next t) (next u) t u _ _
  rw [hover.view_eq hR.base next hbare]
  exact hnext t t u hover

theorem steps_eraseRange (first last : Position) : Steps R R (eraseRange first last : Op key _) := by
  refine (steps_owned hR.base first).andThen (fun _ _ => id) fun lower => ?_
  refine (steps_owned hR.base last).andThen (fun _ _ => id) fun upper => ?_
  refine steps_looking hR (fun t => ?_) fun _ => rfl
  split
  · exact (steps_clear hR).andThen (fun _ _ => id) fun _ => steps_positionOf hR.base none
  · exact (steps_eraseUpTo hR upper _ lower).andThen (fun _ _ => id) fun _ => .pure last

theorem steps_eraseKey (k : κ) : Steps R R (eraseKey k : Op key _) := by
  refine (Steps.ask hR.base fun _ => rfl).andThen (fun _ _ => id) fun range => ?_
  refine (Steps.look hR.base fun _ => rfl).andThen (fun _ _ => id) fun before => ?_
  exact (steps_eraseRange hR range.1 range.2).andThen (fun _ _ => id) fun _ => .look hR.base fun _ => rfl

theorem steps_popFirst : Steps R R (popFirst : Op key _) := by
  refine steps_looking hR (fun t => ?_) fun _ => rfl
  split
  · exact .pure none
  · refine (Steps.look hR.base fun _ => rfl).andThen (fun _ _ => id) fun slot => ?_
    exact (steps_eraseSlot hR slot).andThen (fun _ _ => id) fun item => .pure (some item)

theorem steps_popLast : Steps R R (popLast : Op key _) := by
  refine steps_looking hR (fun t => ?_) fun _ => rfl
  split
  · exact .pure none
  · refine (Steps.look hR.base fun _ => rfl).andThen (fun _ _ => id) fun slot => ?_
    exact (steps_eraseSlot hR slot).andThen (fun _ _ => id) fun item => .pure (some item)

end Tied

section Granting

variable (hbase : ∀ s s', R s s' → s'.base = s.base) (hS : Store.Tied S) (hle : ∀ s s', R s s' → S s s')
  (hgranting : Store.Granting R S)

include hle hgranting in
theorem steps_allocate : Steps R S (allocate : Op key _) := by
  rintro t _ ⟨s, rfl, hs⟩
  refine .step ?_ ⟨s, rfl, hle _ _ hs⟩
  refine (hgranting _ _ hs).bind ?_
  rintro ⟨_, s₁⟩ ⟨answer, s₁'⟩ ⟨rfl, hs₁⟩
  exact ⟨rfl, s₁', rfl, hs₁⟩

include hS hle hgranting

theorem steps_insertAt (item : α) (place : Place) : Steps R S (insertAt item place : Op key _) := by
  refine (steps_allocate hle hgranting).bind (fun _ _ => id) fun answer => ?_
  cases answer with
  | error error => exact .pure _
  | ok slot =>
    refine (steps_construct hS slot item).andThen (fun _ _ => id) fun _ => ?_
    exact (steps_hang slot place).andThen (fun _ _ => id) fun p => .pure _

theorem steps_buildNode (build : Unit → Except ε α) : Steps R S (buildNode build : Op key _) := by
  refine (steps_allocate hle hgranting).bind (fun _ _ => id) fun answer => ?_
  cases answer with
  | error error => exact .pure _
  | ok slot =>
    dsimp only
    obtain ⟨calls, result⟩ := Built.call build 0
    cases result with
    | error failure => exact (steps_giveBack hS slot).andThen (fun _ _ => id) fun _ => .pure _
    | ok item => exact (steps_construct hS slot item).andThen (fun _ _ => id) fun _ => .pure _

include hbase

theorem steps_insertUniqueBy {search : Tree key → κ → Query κ Vacancy} (item : α)
    (hsearch : ∀ (t : Tree key) k, search t.bare k = search t k) : Steps R S (insertUniqueBy search item) := by
  refine (Steps.ask hbase fun t => hsearch t _).andThen hle fun vacancy => ?_
  cases vacancy with
  | occupied slot =>
    exact ((steps_positionOf hbase _).andThen (fun _ _ => id) fun p => .pure _).mono hle
  | vacant place =>
    exact (steps_insertAt hS hle hgranting item place).bind (fun _ _ => id) fun answer => .pure _

theorem steps_insertEqualBy {search : Tree key → κ → Query κ Place} (item : α)
    (hsearch : ∀ (t : Tree key) k, search t.bare k = search t k) : Steps R S (insertEqualBy search item) :=
  (Steps.ask hbase fun t => hsearch t _).andThen hle fun place => steps_insertAt hS hle hgranting item place

omit hbase in
theorem steps_insertUniqueWithBy {search : Tree key → κ → Query κ Vacancy} (build : Unit → Except ε α)
    (hsearch : ∀ (t : Tree key) k, search t.bare k = search t k) : Steps R S (insertUniqueWithBy search build) := by
  refine (steps_buildNode hS hle hgranting build).bind (fun _ _ => id) fun built => ?_
  split
  · exact .pure _
  · refine (Steps.ask hS.base fun t => hsearch t _).andThen (fun _ _ => id) fun vacancy => ?_
    cases vacancy with
    | occupied slot =>
      refine (steps_release hS _).andThen (fun _ _ => id) fun _ => ?_
      exact (steps_positionOf hS.base _).andThen (fun _ _ => id) fun p => .pure _
    | vacant place => exact (steps_hang _ place).andThen (fun _ _ => id) fun p => .pure _

omit hbase in
theorem steps_insertEqualWithBy {search : Tree key → κ → Query κ Place} (build : Unit → Except ε α)
    (hsearch : ∀ (t : Tree key) k, search t.bare k = search t k) : Steps R S (insertEqualWithBy search build) := by
  refine (steps_buildNode hS hle hgranting build).bind (fun _ _ => id) fun built => ?_
  split
  · exact .pure _
  · refine (Steps.ask hS.base fun t => hsearch t _).andThen (fun _ _ => id) fun place => ?_
    exact (steps_hang _ place).andThen (fun _ _ => id) fun p => .pure _

/-- A request that may ask for one slot, and gets the same answer from both
    stores. -/
theorem steps_inserts {c : Command α κ ε} (hc : c.Inserts) : Steps R S (c.run : Op key _) := by
  cases c with
  | insertUnique item => exact .map _ (steps_insertUniqueBy hbase hS hle hgranting item fun _ _ => rfl)
  | insertEqual item => exact .map _ (steps_insertEqualBy hbase hS hle hgranting item fun _ _ => rfl)
  | insertUniqueHint hint item =>
    refine .map _ ((steps_owned hbase hint).andThen hle fun slot => ?_)
    exact steps_insertUniqueBy hbase hS hle hgranting item fun _ _ => by cases slot <;> rfl
  | insertEqualHint hint item =>
    refine .map _ ((steps_owned hbase hint).andThen hle fun slot => ?_)
    exact steps_insertEqualBy hbase hS hle hgranting item fun _ _ => by cases slot <;> rfl
  | insertUniqueWith build => exact .map _ (steps_insertUniqueWithBy hS hle hgranting build fun _ _ => rfl)
  | insertEqualWith build => exact .map _ (steps_insertEqualWithBy hS hle hgranting build fun _ _ => rfl)
  | insertUniqueHintWith hint build =>
    refine .map _ ((steps_owned hbase hint).andThen hle fun slot => ?_)
    exact steps_insertUniqueWithBy hS hle hgranting build fun _ _ => by cases slot <;> rfl
  | insertEqualHintWith hint build =>
    refine .map _ ((steps_owned hbase hint).andThen hle fun slot => ?_)
    exact steps_insertEqualWithBy hS hle hgranting build fun _ _ => by cases slot <;> rfl
  | _ => exact hc.elim

end Granting

end Tree

namespace Walk

variable {α κ β : Type} {key : α → κ} {w : Walk key β}

/-- The walk with the store of its tree reduced to the arena below all
    layers. -/
def bare (w : Walk key β) : Walk key β :=
  { w with tree := w.tree.bare }

theorem forward_bare (w : Walk key β) :
    Matched (fun x y => y = x.map id Walk.bare) w.forward w.bare.forward := by
  rw [forward, forward]
  change Matched _ (if w.front = w.back then _ else _) (if w.front = w.back then _ else _)
  split
  · exact rfl
  · refine (Matched.of_eq rfl).bind ?_
    rintro _ front rfl
    refine (Matched.of_eq rfl).bind ?_
    rintro _ remaining rfl
    refine (Matched.of_eq rfl).bind ?_
    rintro _ slot rfl
    refine (Matched.of_eq rfl).bind ?_
    rintro _ item rfl
    exact rfl

theorem backward_bare (w : Walk key β) :
    Matched (fun x y => y = x.map id Walk.bare) w.backward w.bare.backward := by
  rw [backward, backward]
  change Matched _ (if w.front = w.back then _ else _) (if w.front = w.back then _ else _)
  split
  · exact rfl
  · refine (Matched.of_eq rfl).bind ?_
    rintro _ back rfl
    refine (Matched.of_eq rfl).bind ?_
    rintro _ remaining rfl
    refine (Matched.of_eq rfl).bind ?_
    rintro _ item rfl
    exact rfl

theorem advance_bare (side : Side) (w : Walk key β) :
    Matched (fun x y => y = x.map id Walk.bare) (w.advance side) (w.bare.advance side) := by
  cases side with
  | left => exact w.forward_bare
  | right => exact w.backward_bare

/-- A walk gives the same items, whatever the layers over the arena. -/
theorem follow_bare (script : List Side) (w : Walk key β) :
    Matched (fun x y => y = x.map id Walk.bare) (w.follow script) (w.bare.follow script) := by
  induction script generalizing w with
  | nil => exact rfl
  | cons side script ih =>
    refine (w.advance_bare side).bind ?_
    rintro ⟨item, v⟩ _ rfl
    refine (ih v).bind ?_
    rintro ⟨items, v⟩ _ rfl
    exact rfl

theorem take_bare (side : Side) (limit : Nat) (w : Walk key β) :
    Matched (fun x y => y = x.map id Walk.bare) (w.take side limit) (w.bare.take side limit) := by
  induction limit generalizing w with
  | zero => exact rfl
  | succ limit ih =>
    refine (w.advance_bare side).bind ?_
    rintro ⟨item, v⟩ _ rfl
    cases item with
    | none => exact rfl
    | some item =>
      refine (ih v).bind ?_
      rintro ⟨items, v⟩ _ rfl
      exact rfl

end Walk

theorem Shape.copy_base {α ε : Type} {source source' : Store α} (hbase : source'.base = source.base)
    (make : Nat → α → Except ε α) (shape : Shape) (s : Copying α) :
    shape.copy source' make s = shape.copy source make s := by
  conv_lhs => rw [← shape.rename_id]
  exact shape.copy_rename make s fun slot _ => by rw [id, Store.read, Store.read, hbase]

namespace Tree

variable {α κ ε : Type} {key : α → κ} {R : Store α → Store α → Prop}

theorem successor_bare (t : Tree key) : t.bare.successor = t.successor := by
  funext slot
  cases slot <;> rfl

theorem predecessor_bare (t : Tree key) : t.bare.predecessor = t.predecessor := by
  funext slot
  cases slot <;> rfl

theorem next_bare (t : Tree key) (p : Position) : t.bare.next p = t.next p := by
  simp only [next, successor_bare]
  rfl

theorem prev_bare (t : Tree key) (p : Position) : t.bare.prev p = t.prev p := by
  simp only [prev, predecessor_bare]
  rfl

theorem walkRange_bare (t : Tree key) (first last : Position) :
    Matched (fun w w' => w' = w.bare) (t.walkRange first last) (t.bare.walkRange first last) := by
  refine (Matched.of_eq rfl).bind ?_
  rintro _ front rfl
  refine (Matched.of_eq rfl).bind ?_
  rintro _ back rfl
  exact rfl

theorem count_bare (t : Tree key) (k : κ) : t.bare.count k = t.count k := by
  refine Query.Matched.eq (Query.Matched.bind (R := fun w w' => w' = w.bare) ?_ ?_)
  · refine Query.Matched.bind (.refl (t.equalRange k)) ?_
    rintro _ ⟨first, last⟩ rfl
    exact .lift (t.walkRange_bare first last)
  · rintro w _ rfl
    refine Query.Matched.bind (.lift (w.take_bare .left (w.tree.size + 1))) ?_
    rintro ⟨items, v⟩ _ rfl
    exact .pure rfl

theorem copyWith_bare (make : Nat → α → Except ε α) (store : Store α) (tag : UInt64) (t : Tree key) :
    t.bare.copyWith make store tag = t.copyWith make store tag := by
  have hbase : t.bare.store.base = t.store.base := rfl
  have hcopy (s : Copying α) : t.bare.shape.copy t.bare.store make s = t.shape.copy t.store make s :=
    t.shape.copy_base hbase make s
  simp only [copyWith, hcopy]
  rfl

theorem answer_bare (q : Inquiry α κ ε) (t : Tree key) : (q.answer t.bare : Query κ (Finding key ε)) = q.answer t := by
  cases q with
  | start => rfl
  | finish => rfl
  | size => rfl
  | first => rfl
  | last => rfl
  | get p => rfl
  | next p => simp only [Inquiry.answer, next_bare]
  | prev p => simp only [Inquiry.answer, prev_bare]
  | equalRange k => rfl
  | count k => simp only [Inquiry.answer, count_bare]
  | items => rfl
  | walk script =>
    refine Query.Matched.eq (Query.Matched.bind (.lift (t.walk.follow_bare script)) ?_)
    rintro ⟨items, v⟩ _ rfl
    exact .pure rfl
  | walkRange first last script =>
    refine Query.Matched.eq (Query.Matched.bind (.lift (t.walkRange_bare first last)) ?_)
    rintro w _ rfl
    refine Query.Matched.bind (.lift (w.follow_bare script)) ?_
    rintro ⟨items, v⟩ _ rfl
    exact .pure rfl
  | copy make store tag => simp only [Inquiry.answer, copyWith_bare]

/-- A request that asks for no slot gets the same answer from both trees. -/
theorem steps_plain (hR : Store.Tied R) {c : Command α κ ε} (hc : ¬ c.Inserts) : Steps R R (c.run : Op key _) := by
  cases c with
  | find k => exact .map _ (.ask hR.base fun _ => rfl)
  | contains k => exact .map _ (.ask hR.base fun _ => rfl)
  | lowerBound k => exact .map _ (.ask hR.base fun _ => rfl)
  | upperBound k => exact .map _ (.ask hR.base fun _ => rfl)
  | erase p => exact .map _ (steps_erase hR p)
  | remove p => exact .map _ (steps_remove hR p)
  | eraseRange first last => exact .map _ (steps_eraseRange hR first last)
  | eraseKey k => exact .map _ (steps_eraseKey hR k)
  | popFirst => exact .map _ (steps_popFirst hR)
  | popLast => exact .map _ (steps_popLast hR)
  | clear => exact .map _ (steps_clear hR)
  | _ => exact absurd trivial hc

/-- Whatever is requested, both trees answer alike, if they do so where the
    request asks for a slot. -/
theorem steps_request {S : Store α → Store α → Prop} (hR : Store.Tied R) (hS : Store.Tied S)
    (hle : ∀ s s', R s s' → S s s') (r : Request α κ ε) (hgranting : r.Inserts → Store.Granting R S) :
    Steps R S (r.run : Op key _) := by
  cases r with
  | command c =>
    by_cases hc : c.Inserts
    · exact .map _ (steps_inserts hR.base hS hle (hgranting hc) hc)
    · exact .map _ ((steps_plain hR hc).mono hle)
  | inquiry q => exact .map _ ((Steps.ask hR.base (answer_bare q)).mono hle)

end Tree

end RedBlack
