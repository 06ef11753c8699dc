import RedBlack.Proofs.Tree.Requests

namespace RedBlack

variable {α κ ε ρ υ : Type}

/-- The computation is not refused over a position of another tree, and what it
    gives is good. Nothing is asked of the tree for that: its links may be
    broken, and its positions may name what is gone. -/
def Unrefused (good : ρ → Prop) : Except Fault ρ → Prop
  | .ok value => good value
  | .error fault => fault ≠ .foreignPosition

/-- The computation is not refused over a position of another tree. -/
abbrev Unhindered (x : Except Fault ρ) : Prop :=
  Unrefused (fun _ => True) x

namespace Unrefused

variable {good : ρ → Prop} {good' : υ → Prop} {x : Except Fault ρ}

theorem mono {better : ρ → Prop} (h : Unrefused better x) (hgood : ∀ value, better value → good value) :
    Unrefused good x := by
  cases x with
  | ok value => exact hgood value h
  | error fault => exact h

theorem bind {f : ρ → Except Fault υ} (h : Unrefused good x) (hf : ∀ value, good value → Unrefused good' (f value)) :
    Unrefused good' (x >>= f) := by
  cases x with
  | ok value => exact hf value h
  | error fault => exact h

theorem map (h : Unrefused good x) (f : ρ → υ) (hf : ∀ value, good value → good' (f value)) :
    Unrefused good' (x.map f) := by
  cases x with
  | ok value => exact hf value h
  | error fault => exact h

theorem mapM {β : Type} {f : β → Except Fault ρ} (h : ∀ b, Unhindered (f b)) (bs : List β) :
    Unhindered (bs.mapM f) := by
  induction bs with
  | nil => exact trivial
  | cons b rest ih =>
    rw [List.mapM_cons]
    exact (h b).bind fun _ _ => ih.bind fun _ _ => trivial

end Unrefused

theorem unhindered_checkedSub (a b : Nat) : Unhindered (checkedSub a b) := by
  rw [checkedSub]
  split <;> simp [Unrefused]

namespace Arena

variable {a : Arena α}

theorem unhindered_cell (slot : Slot) : Unhindered (a.cell slot) := by
  rw [cell]
  split <;> simp [Unrefused]

theorem unhindered_allocate : Unhindered a.allocate := by
  rw [allocate]
  split
  · next slot _ =>
    have hcell := a.unhindered_cell slot
    split <;> simp_all [Unrefused]
  · split <;> simp [Unrefused]

theorem unhindered_construct (slot : Slot) (item : α) : Unhindered (a.construct slot item) := by
  have hcell := a.unhindered_cell slot
  rw [construct]
  split <;> simp_all [Unrefused]

theorem unhindered_deallocate (slot : Slot) : Unhindered (a.deallocate slot) := by
  have hcell := a.unhindered_cell slot
  rw [deallocate]
  split <;> simp_all [Unrefused]

theorem unhindered_read (slot : Slot) : Unhindered (a.read slot) := by
  have hcell := a.unhindered_cell slot
  rw [read]
  split <;> simp_all [Unrefused]

theorem unhindered_write (slot : Slot) (item : α) : Unhindered (a.write slot item) := by
  have hcell := a.unhindered_cell slot
  rw [write]
  split <;> simp_all [Unrefused]

end Arena

namespace Store

theorem unhindered_allocate (s : Store α) : Unhindered s.allocate := by
  induction s with
  | arena base => exact Arena.unhindered_allocate.bind fun _ _ => trivial
  | counting below allocations deallocations ih =>
    refine Unrefused.bind ih fun answer _ => ?_
    obtain ⟨slot | error, below⟩ := answer <;> trivial
  | limited below remaining ih =>
    rw [allocate]
    split
    · trivial
    · refine Unrefused.bind ih fun answer _ => ?_
      obtain ⟨slot | error, below⟩ := answer <;> trivial
  | recorded below calls ih =>
    refine Unrefused.bind ih fun answer _ => ?_
    obtain ⟨slot | error, below⟩ := answer <;> trivial

theorem unhindered_construct (slot : Slot) (item : α) (s : Store α) : Unhindered (s.construct slot item) := by
  induction s with
  | arena base => exact (Arena.unhindered_construct slot item).bind fun _ _ => trivial
  | counting below allocations deallocations ih => exact Unrefused.bind ih fun _ _ => trivial
  | limited below remaining ih => exact Unrefused.bind ih fun _ _ => trivial
  | recorded below calls ih => exact Unrefused.bind ih fun _ _ => trivial

theorem unhindered_write (slot : Slot) (item : α) (s : Store α) : Unhindered (s.write slot item) := by
  induction s with
  | arena base => exact (Arena.unhindered_write slot item).bind fun _ _ => trivial
  | counting below allocations deallocations ih => exact Unrefused.bind ih fun _ _ => trivial
  | limited below remaining ih => exact Unrefused.bind ih fun _ _ => trivial
  | recorded below calls ih => exact Unrefused.bind ih fun _ _ => trivial

theorem unhindered_deallocate (slot : Slot) (s : Store α) : Unhindered (s.deallocate slot) := by
  induction s with
  | arena base => exact (Arena.unhindered_deallocate slot).bind fun _ _ => trivial
  | counting below allocations deallocations ih => exact Unrefused.bind ih fun _ _ => trivial
  | limited below remaining ih => exact Unrefused.bind ih fun _ _ => trivial
  | recorded below calls ih =>
    refine Unrefused.bind ih fun answer _ => ?_
    obtain ⟨item | _, below⟩ := answer <;> trivial

end Store

namespace Shape

theorem unhindered_rotate (side : Side) (t : Shape) : Unhindered (t.rotate side) := by
  cases t with
  | nil => simp [rotate, Unrefused]
  | node color left slot right =>
    rw [rotate]
    split <;> simp [Unrefused]

theorem unhindered_recolor (color : Color) (t : Shape) : Unhindered (t.recolor color) := by
  cases t <;> simp [recolor, Unrefused]

end Shape

theorem Path.unhindered_raise (up : Path) (g : Frame) (lower : Shape) (turns : Nat) :
    Unhindered (raise up g lower turns) :=
  (Shape.unhindered_rotate _ _).map _ fun _ _ => trivial

theorem Path.unhindered_repairRed : ∀ (path : Path) (x : Shape), Unhindered (path.repairRed x)
  | [], x => (x.unhindered_recolor .black).bind fun _ _ => trivial
  | [p], x => by
    rw [repairRed_singleton]
    split <;> simp [Unrefused]
  | p :: g :: up, x => by
    rw [repairRed_cons_cons]
    split
    · trivial
    split
    · exact (unhindered_repairRed up _).map _ fun _ _ => trivial
    split
    · exact unhindered_raise up g _ 0
    · exact (Shape.unhindered_rotate _ _).bind fun lower _ => unhindered_raise up g lower 1

theorem Frame.unhindered_lend (f : Frame) (x lender : Shape) (turns : Nat) : Unhindered (f.lend x lender turns) :=
  (Shape.unhindered_rotate _ _).map _ fun _ _ => trivial

theorem Frame.unhindered_settle (f : Frame) (x : Shape) : Unhindered (f.settle x) := by
  by_cases hsibling : f.sibling = .nil
  · simp [settle, hsibling, Unrefused]
  rw [settle_eq_lend x hsibling]
  split
  · trivial
  split
  · exact f.unhindered_lend x _ 0
  · exact (Shape.unhindered_rotate _ _).bind fun lender _ => f.unhindered_lend x lender 1

theorem Path.unhindered_repairShort (path : Path) (x : Shape) : Unhindered (path.repairShort x) := by
  induction path generalizing x with
  | nil => trivial
  | cons f up ih =>
    rw [repairShort]
    split
    · trivial
    · split
      · refine (Frame.unhindered_settle _ _).bind fun settlement _ => ?_
        cases settlement <;> trivial
      · refine (Frame.unhindered_settle _ _).bind fun settlement _ => ?_
        cases settlement with
        | settled t rotations => trivial
        | short t => exact (ih t).bind fun _ _ => trivial

theorem Path.unhindered_closeGap (path : Path) (removed : Color) (x : Shape) :
    Unhindered (path.closeGap removed x) := by
  cases removed with
  | black => exact path.unhindered_repairShort x
  | red => trivial

namespace Shape

theorem unhindered_attach (slot : Slot) (place : Place) (t : Shape) : Unhindered (t.attach slot place) := by
  unfold attach
  split
  · split
    · exact Path.unhindered_repairRed _ _
    · simp [Unrefused]
  · split
    · split
      · exact Path.unhindered_repairRed _ _
      · exact Path.unhindered_repairRed _ _
      · simp [Unrefused]
      · simp [Unrefused]
    · simp [Unrefused]

theorem unhindered_unlink (slot : Slot) (t : Shape) : Unhindered (t.unlink slot) := by
  rw [unlink]
  split
  · split
    · exact Path.unhindered_closeGap _ _ _
    · exact Path.unhindered_closeGap _ _ _
    · split
      · exact Path.unhindered_closeGap _ _ _
      · simp [Unrefused]
  · simp [Unrefused]

theorem unhindered_releaseAll (t : Shape) (s : Store α) : Unhindered (t.releaseAll s) := by
  induction t generalizing s with
  | nil => trivial
  | node color left slot right ihl ihr =>
    refine (ihr s).bind fun s₁ _ => (Store.unhindered_deallocate slot s₁).bind fun answer _ => ?_
    obtain ⟨_ | item, s₂⟩ := answer
    · simp [Unrefused]
    · exact ihl s₂

theorem unhindered_copyItem (source : Store α) (make : Nat → α → Except ε α) (slot : Slot) (s : Copying α) :
    Unhindered (copyItem source make slot s) := by
  refine (Store.unhindered_allocate s.store).bind fun answer _ => ?_
  obtain ⟨error | fresh, store⟩ := answer
  · trivial
  · refine (Arena.unhindered_read slot).bind fun item _ => ?_
    dsimp only
    split
    · exact (Store.unhindered_construct fresh _ store).bind fun _ _ => trivial
    · exact (Store.unhindered_deallocate fresh store).bind fun _ _ => trivial

theorem unhindered_copy (source : Store α) (make : Nat → α → Except ε α) (t : Shape) (s : Copying α) :
    Unhindered (t.copy source make s) := by
  induction t generalizing s with
  | nil => trivial
  | node color left slot right ihl ihr =>
    refine (unhindered_copyItem source make slot s).bind fun answer _ => ?_
    obtain ⟨failure | fresh, s₁⟩ := answer
    · trivial
    · refine (ihr s₁).bind fun r _ => ?_
      split
      · exact (r.shape.unhindered_releaseAll _).bind fun _ _ => trivial
      · exact (ihl _).bind fun _ _ => trivial

end Shape

namespace Unrefused

variable {good : ρ → Prop} {good' : υ → Prop}

theorem query {q : Query κ ρ} {next : ρ → Query κ υ} (h : Unrefused good q.answer)
    (hnext : ∀ value, good value → Unrefused good' (next value).answer) : Unrefused good' (q >>= next).answer := by
  rw [Query.answer_bind]
  exact h.bind hnext

theorem lift {x : Except Fault ρ} (h : Unrefused good x) : Unrefused good (liftM x : Query κ ρ).answer := by
  rwa [Query.answer_lift]

end Unrefused

theorem Shape.unhindered_descend {turn : Slot → Query κ Side} (h : ∀ slot, Unhindered (turn slot).answer) (t : Shape)
    (trail : Trail) : Unhindered (t.descend turn trail).answer := by
  induction t generalizing trail with
  | nil => trivial
  | node color left slot right ihl ihr =>
    refine (h slot).query fun side _ => ?_
    cases side with
    | left => exact ihl _
    | right => exact ihr _

namespace Tree

variable {key : α → κ} {t : Tree key} {p : Position}

theorem unhindered_itemAt (slot : Slot) : Unhindered (t.itemAt slot) :=
  Arena.unhindered_read slot

theorem unhindered_keyAt (slot : Slot) : Unhindered (t.keyAt slot) :=
  (unhindered_itemAt slot).map key fun _ => id

theorem unhindered_dereference (slot : Option Slot) : Unhindered (dereference slot) := by
  cases slot <;> simp [dereference, Unrefused]

theorem unhindered_beside (side : Side) (slot : Slot) : Unhindered (t.beside side slot) := by
  refine (unhindered_itemAt slot).bind fun _ _ => ?_
  split <;> simp [Unrefused]

theorem unhindered_successor (slot : Option Slot) : Unhindered (t.successor slot) := by
  cases slot with
  | none => simp [successor, Unrefused]
  | some slot => exact unhindered_beside .right slot

theorem unhindered_predecessor (slot : Option Slot) : Unhindered (t.predecessor slot) := by
  cases slot with
  | none =>
    rw [predecessor]
    split
    · simp [Unrefused]
    · exact unhindered_dereference _
  | some slot =>
    refine (unhindered_beside .left slot).bind fun before _ => ?_
    cases before <;> simp [Unrefused]

theorem unhindered_gap (before after : Slot) : Unhindered (t.gap before after) := by
  rw [gap]
  split <;> simp [Unrefused]

theorem unhindered_compare (a b : κ) : Unhindered (Query.compare t.less a b).answer :=
  trivial

theorem unhindered_turn (bound : Bound) (k : κ) (slot : Slot) : Unhindered (t.turn bound k slot).answer := by
  refine (unhindered_keyAt slot).lift.query fun stored _ => ?_
  cases bound with
  | lower => exact (unhindered_compare stored k).query fun _ _ => trivial
  | upper => exact (unhindered_compare k stored).query fun _ _ => trivial

theorem unhindered_trail (bound : Bound) (k : κ) : Unhindered (t.trail bound k).answer :=
  t.shape.unhindered_descend (unhindered_turn bound k) []

theorem unhindered_bound (bound : Bound) (k : κ) : Unhindered (t.bound bound k).answer :=
  (unhindered_trail bound k).query fun _ _ => trivial

theorem unhindered_equalPlace (bound : Bound) (k : κ) : Unhindered (t.equalPlace bound k).answer := by
  refine (unhindered_trail bound k).query fun trail _ => ?_
  cases trail with
  | nil => trivial
  | cons step rest => exact (unhindered_turn bound k step.1).query fun _ _ => trivial

theorem unhindered_comparison {slot : Slot} {ask : κ → Query κ Bool} (hask : ∀ stored, Unhindered (ask stored).answer)
    {next : Bool → Query κ ρ} (hnext : ∀ lesser, Unhindered (next lesser).answer) :
    Unhindered (do next (← ask (← t.keyAt slot)) : Query κ ρ).answer := by
  refine (unhindered_keyAt slot).lift.query fun stored _ => ?_
  exact (hask stored).query fun lesser _ => hnext lesser

theorem unhindered_uniquePlace (k : κ) : Unhindered (t.uniquePlace k).answer := by
  have hsettle (parent before : Slot) (side : Side) : Unhindered (do
      if ← Query.compare t.less (← t.keyAt before) k then return .vacant (.under parent side)
      else return .occupied before : Query κ Vacancy).answer :=
    unhindered_comparison (fun _ => unhindered_compare _ _) fun lesser => by cases lesser <;> trivial
  refine (unhindered_trail .upper k).query fun trail _ => ?_
  cases trail with
  | nil => trivial
  | cons step rest =>
    obtain ⟨parent, side⟩ := step
    dsimp only
    split
    · trivial
    · cases side with
      | left => exact (unhindered_predecessor (some parent)).lift.query fun before _ => hsettle parent before .left
      | right =>
        have hparent : Unhindered (pure parent : Query κ Slot).answer := trivial
        exact hparent.query fun before _ => hsettle parent before .right

theorem unhindered_hintedUniquePlace (hint : Option Slot) (k : κ) :
    Unhindered (t.hintedUniquePlace hint k).answer := by
  have hplain := t.unhindered_uniquePlace k
  have hgap (before after : Slot) : Unhindered (do
      return .vacant (← t.gap before after) : Query κ Vacancy).answer :=
    (unhindered_gap before after).lift.query fun _ _ => trivial
  cases hint with
  | none =>
    rw [hintedUniquePlace]
    split
    · exact hplain
    · refine (unhindered_dereference t.rightmost).lift.query fun last _ => ?_
      refine unhindered_comparison (fun _ => unhindered_compare _ _) fun lesser => ?_
      cases lesser with
      | true => trivial
      | false => exact hplain
  | some slot =>
    refine (unhindered_keyAt slot).lift.query fun stored _ => ?_
    refine (unhindered_compare k stored).query fun lesser _ => ?_
    cases lesser with
    | true =>
      rw [if_pos rfl]
      split
      · trivial
      · refine (unhindered_predecessor (some slot)).lift.query fun before _ => ?_
        refine unhindered_comparison (fun _ => unhindered_compare _ _) fun fits => ?_
        cases fits with
        | true => exact hgap before slot
        | false => exact hplain
    | false =>
      rw [if_neg Bool.false_ne_true]
      refine (unhindered_compare stored k).query fun greater _ => ?_
      cases greater with
      | true =>
        rw [if_pos rfl]
        split
        · trivial
        · refine (unhindered_successor (some slot)).lift.query fun next _ => ?_
          refine (unhindered_dereference next).lift.query fun after _ => ?_
          refine unhindered_comparison (fun _ => unhindered_compare _ _) fun fits => ?_
          cases fits with
          | true => exact hgap slot after
          | false => exact hplain
      | false => trivial

theorem unhindered_hintedEqualPlace (hint : Option Slot) (k : κ) :
    Unhindered (t.hintedEqualPlace hint k).answer := by
  have hplain (bound : Bound) := t.unhindered_equalPlace bound k
  cases hint with
  | none =>
    rw [hintedEqualPlace]
    split
    · exact hplain .upper
    · refine (unhindered_dereference t.rightmost).lift.query fun last _ => ?_
      refine unhindered_comparison (fun _ => unhindered_compare _ _) fun lesser => ?_
      cases lesser with
      | true => exact hplain .upper
      | false => trivial
  | some slot =>
    refine unhindered_comparison (fun _ => unhindered_compare _ _) fun greater => ?_
    cases greater with
    | true =>
      rw [if_pos rfl]
      split
      · trivial
      · refine (unhindered_successor (some slot)).lift.query fun next _ => ?_
        refine (unhindered_dereference next).lift.query fun after _ => ?_
        refine unhindered_comparison (fun _ => unhindered_compare _ _) fun passes => ?_
        cases passes with
        | true => exact hplain .lower
        | false => exact (unhindered_gap slot after).lift
    | false =>
      rw [if_neg Bool.false_ne_true]
      split
      · trivial
      · refine (unhindered_predecessor (some slot)).lift.query fun before _ => ?_
        refine unhindered_comparison (fun _ => unhindered_compare _ _) fun passes => ?_
        cases passes with
        | true => exact hplain .upper
        | false => exact (unhindered_gap before slot).lift

/-- Every position is one of the tree, which is told by their tag alone. -/
def Owns (t : Tree key) (ps : List Position) : Prop :=
  ∀ p ∈ ps, p.tag = t.tag

theorem Continues.owns_iff {u : Tree key} {ps : List Position} (h : u.Continues t) : u.Owns ps ↔ t.Owns ps := by
  rw [Owns, Owns, h.tag]

theorem unhindered_own (hp : p.tag = t.tag) : Unhindered (t.own p) := by
  rw [own, if_pos hp]
  trivial

theorem unrefused_bound (bound : Bound) (k : κ) :
    Unrefused (fun p => p.tag = t.tag) (do return t.position (← t.bound bound k) : Query κ Position).answer :=
  (unhindered_bound bound k).query fun _ _ => rfl

theorem unrefused_equalRange (k : κ) :
    Unrefused (fun range => t.Owns [range.1, range.2]) (t.equalRange k).answer := by
  refine (unrefused_bound .lower k).query fun first hfirst => ?_
  refine (unrefused_bound .upper k).query fun last hlast => ?_
  simp [Unrefused, Owns, hfirst, hlast]

theorem unrefused_find (k : κ) : Unrefused (fun p => p.tag = t.tag) (t.find k).answer := by
  refine (unhindered_bound .lower k).query fun slot _ => ?_
  cases slot with
  | none => rfl
  | some slot =>
    refine (unhindered_keyAt slot).lift.query fun stored _ => ?_
    refine (unhindered_compare k stored).query fun lesser _ => ?_
    cases lesser <;> rfl

theorem unhindered_contains (k : κ) : Unhindered (t.contains k).answer :=
  (unrefused_find k).query fun _ _ => trivial

theorem unhindered_get (hp : p.tag = t.tag) : Unhindered (t.get p) := by
  refine (unhindered_own hp).bind fun slot _ => ?_
  cases slot with
  | none => trivial
  | some slot => exact (unhindered_itemAt slot).bind fun _ _ => trivial

theorem unrefused_next (hp : p.tag = t.tag) : Unrefused (fun q => q.tag = t.tag) (t.next p) :=
  (unhindered_own hp).bind fun slot _ => (unhindered_successor slot).bind fun _ _ => rfl

theorem unrefused_prev (hp : p.tag = t.tag) : Unrefused (fun q => q.tag = t.tag) (t.prev p) :=
  (unhindered_own hp).bind fun slot _ => (unhindered_predecessor slot).bind fun _ _ => rfl

theorem unhindered_first : Unhindered t.first? :=
  unhindered_get rfl

theorem unhindered_last : Unhindered t.last? := by
  rw [last?]
  split
  · trivial
  · refine (unhindered_dereference t.rightmost).bind fun slot _ => ?_
    exact (unhindered_itemAt slot).bind fun _ _ => trivial

theorem unhindered_items : Unhindered t.items :=
  Unrefused.mapM unhindered_itemAt t.shape.slots

theorem unhindered_copyWith (make : Nat → α → Except ε α) (store : Store α) (tag : UInt64) :
    Unhindered (t.copyWith make store tag) := by
  refine (t.shape.unhindered_copy t.store make _).bind fun copied _ => ?_
  split
  · exact (copied.shape.unhindered_releaseAll _).bind fun _ _ => trivial
  · trivial

end Tree

namespace Walk

variable {β : Type} {key : α → κ}

theorem unhindered_countDown (remaining : Option Nat) : Unhindered (countDown remaining) := by
  cases remaining with
  | none => trivial
  | some remaining => exact (unhindered_checkedSub remaining 1).bind fun _ _ => trivial

theorem unhindered_advance (side : Side) (w : Walk key β) : Unhindered (w.advance side) := by
  cases side with
  | left =>
    change Unhindered w.forward
    rw [forward]
    split
    · trivial
    · refine (Tree.unhindered_successor w.front).bind fun front _ => ?_
      refine (unhindered_countDown w.remaining).bind fun remaining _ => ?_
      refine (Tree.unhindered_dereference w.front).bind fun slot _ => ?_
      exact (Tree.unhindered_itemAt slot).bind fun _ _ => trivial
  | right =>
    change Unhindered w.backward
    rw [backward]
    split
    · trivial
    · refine (Tree.unhindered_predecessor w.back).bind fun back _ => ?_
      refine (unhindered_countDown w.remaining).bind fun remaining _ => ?_
      exact (Tree.unhindered_itemAt back).bind fun _ _ => trivial

theorem unhindered_follow (script : List Side) (w : Walk key β) : Unhindered (w.follow script) := by
  induction script generalizing w with
  | nil => trivial
  | cons side script ih =>
    refine (unhindered_advance side w).bind fun step _ => ?_
    exact (ih step.2).bind fun _ _ => trivial

theorem unhindered_take (side : Side) (limit : Nat) (w : Walk key β) : Unhindered (w.take side limit) := by
  induction limit generalizing w with
  | zero => trivial
  | succ limit ih =>
    refine (unhindered_advance side w).bind fun step _ => ?_
    obtain ⟨_ | item, w'⟩ := step
    · trivial
    · exact (ih w').bind fun _ _ => trivial

end Walk

namespace Tree

variable {key : α → κ} {t : Tree key} {first last : Position}

theorem unhindered_walkRange (h : t.Owns [first, last]) : Unhindered (t.walkRange first last) := by
  refine (unhindered_own (h first (by simp))).bind fun front _ => ?_
  exact (unhindered_own (h last (by simp))).bind fun back _ => trivial

theorem unhindered_count (k : κ) : Unhindered (t.count k).answer := by
  have hwalk : Unhindered (t.walkEqual k).answer :=
    (unrefused_equalRange k).query fun _ hrange => (unhindered_walkRange hrange).lift
  refine hwalk.query fun w _ => ?_
  exact (w.unhindered_take .left _).lift.query fun _ _ => trivial

/-- An inquiry at positions of the tree is not refused, and gives positions of
    the tree. -/
theorem unrefused_inquiry (q : Inquiry α κ ε) (h : t.Owns q.positions) :
    Unrefused (fun found : Finding key ε => t.Owns found.positions) (q.answer t).answer := by
  have hnone : t.Owns [] := by simp [Owns]
  have hone {p : Position} (hp : p.tag = t.tag) : t.Owns [p] := by simpa [Owns] using hp
  cases q with
  | start => exact hone rfl
  | finish => exact hone rfl
  | size => exact hnone
  | first => exact unhindered_first.lift.query fun _ _ => hnone
  | last => exact unhindered_last.lift.query fun _ _ => hnone
  | get p => exact (unhindered_get (h p (by simp [Inquiry.positions]))).lift.query fun _ _ => hnone
  | next p => exact (unrefused_next (h p (by simp [Inquiry.positions]))).lift.query fun _ => hone
  | prev p => exact (unrefused_prev (h p (by simp [Inquiry.positions]))).lift.query fun _ => hone
  | equalRange k => exact (unrefused_equalRange k).query fun _ hrange => hrange
  | count k => exact (unhindered_count k).query fun _ _ => hnone
  | items => exact unhindered_items.lift.query fun _ _ => hnone
  | walk script => exact (t.walk.unhindered_follow script).lift.query fun _ _ => hnone
  | walkRange first last script =>
    refine (unhindered_walkRange h).lift.query fun w _ => ?_
    exact (w.unhindered_follow script).lift.query fun _ _ => hnone
  | copy make store tag => exact (unhindered_copyWith make store tag).lift.query fun _ _ => hnone

end Tree

end RedBlack
