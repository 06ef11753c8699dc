import Mathlib.Data.List.Forall2
import RedBlack.Proofs.Tree.Removal
import RedBlack.Tree.Replica

namespace RedBlack

namespace Shape

/-- A shape without its slots: what a copy has in common with its source. -/
def outline : Shape → Shape
  | nil => nil
  | node color left _ right => node color left.outline 0 right.outline

theorem color_outline (t : Shape) : t.outline.color = t.color := by
  cases t <;> rfl

theorem balanced_outline (t : Shape) (n : Nat) : t.outline.Balanced n ↔ t.Balanced n := by
  induction t generalizing n with
  | nil => rfl
  | node color left slot right ihl ihr => simp only [outline, Balanced, ihl, ihr, color_outline]

theorem IsRedBlack.of_outline {t u : Shape} (h : t.IsRedBlack) (houtline : u.outline = t.outline) :
    u.IsRedBlack := by
  obtain ⟨hcolor, n, hbalanced⟩ := h
  rw [← color_outline, ← houtline, color_outline] at hcolor
  rw [← balanced_outline, ← houtline, balanced_outline] at hbalanced
  exact ⟨hcolor, n, hbalanced⟩

end Shape

variable {α ε : Type} {before after own : List (Slot × α)} {o : Outside α}

/-- The entries of a copy, each built from its source by some call. -/
abbrev CopiedFrom (make : Nat → α → Except ε α) (own new : List (Slot × α)) : Prop :=
  List.Forall₂ (fun e f => ∃ call, make call e.2 = .ok f.2) own new

theorem CopiedFrom.items_eq {own new : List (Slot × α)}
    (h : CopiedFrom (fun _ item => .ok item : Nat → α → Except ε α) own new) :
    new.map Prod.snd = own.map Prod.snd := by
  have hsame : List.Forall₂ (fun e f : Slot × α => e.2 = f.2) own new := by
    refine h.imp ?_
    rintro e f ⟨_, hmake⟩
    exact Except.ok.inj hmake
  rw [← List.forall₂_eq_eq_eq, List.forall₂_map_left_iff, List.forall₂_map_right_iff]
  exact hsame.flip.imp fun _ _ heq => heq.symm

/-- A store that lies beside the same things, held less than the given number of
    entries and yet had no room. -/
def Exhausted (o : Outside α) (bound : Nat) : Prop :=
  ∃ (store : Store α) (held : List (Slot × α)), store.Holds held o ∧ ¬ store.HasRoom ∧ held.length < bound

/-- What stopped a copy is a refusal of its store or a failing call. -/
def StoppedBy (make : Nat → α → Except ε α) (o : Outside α) (bound : Nat) : Failure ε → Prop
  | .alloc _ => Exhausted o bound
  | .construct error => ∃ call item, make call item = .error error

theorem StoppedBy.mono {make : Nat → α → Except ε α} {m n : Nat} {failure : Failure ε}
    (h : StoppedBy make o m failure) (hle : m ≤ n) : StoppedBy make o n failure := by
  cases failure with
  | alloc error =>
    obtain ⟨store, held, hstore, hroom, hlt⟩ := h
    exact ⟨store, held, hstore, hroom, by omega⟩
  | construct error => exact h

namespace Shape

variable {source : Store α} (make : Nat → α → Except ε α)

theorem copyItem_spec {s : Copying α} {slot : Slot} {item : α} (hstore : s.store.Holds (before ++ after) o)
    (hread : source.read slot = .ok item) :
    (∃ fresh new s', copyItem source make slot s = .ok (.ok fresh, s') ∧ (∃ call, make call item = .ok new) ∧
      s'.store.Holds (before ++ (fresh, new) :: after) o) ∨
    ∃ failure s', copyItem source make slot s = .ok (.error failure, s') ∧
      s'.store.Holds (before ++ after) o ∧ StoppedBy make o ((before ++ after).length + 1) failure := by
  obtain ⟨fresh, store, hrun, _, hfree, hstore₁⟩ | ⟨store, hrun, hroom, hstore₁⟩ := hstore.allocate
  · cases hmake : make s.given.length item with
    | ok new =>
      obtain ⟨store', hconstruct, hstore₂⟩ := hstore₁.construct new
      refine .inl ⟨fresh, new, { store := store', given := item :: s.given }, ?_, ⟨_, hmake⟩, hstore₂.link hfree⟩
      simp [copyItem, hrun, hread, hmake, hconstruct]
    | error error =>
      obtain ⟨store', hdeallocate, hstore₂⟩ := hstore₁.deallocate hfree
      refine .inr ⟨.construct error, { store := store', given := item :: s.given }, ?_, hstore₂, _, _, hmake⟩
      simp [copyItem, hrun, hread, hmake, hdeallocate]
  · refine .inr ⟨.alloc .noSlot, { s with store }, ?_, hstore₁, store, _, hstore₁, hroom, Nat.lt_succ_self _⟩
    simp [copyItem, hrun]

/-- A copy of a subtree comes between any parts of what the store holds. Also a
    copy that fails tells which slots it still has, so that they can be
    released; with the right subtree released, the node alone is left of it. -/
theorem copy_spec {shape : Shape} {s : Copying α} (hslots : shape.slots = own.map Prod.fst)
    (hread : ∀ e ∈ own, source.read e.1 = .ok e.2) (hstore : s.store.Holds (before ++ after) o) :
    ∃ r new, shape.copy source make s = .ok r ∧ r.shape.slots = new.map Prod.fst ∧
      r.state.store.Holds (before ++ new ++ after) o ∧
      (r.failure = none → r.shape.outline = shape.outline ∧ CopiedFrom make own new) ∧
      ∀ failure, r.failure = some failure → StoppedBy make o ((before ++ own ++ after).length) failure := by
  induction shape generalizing s own before after with
  | nil =>
    obtain rfl : own = [] := by simpa [slots] using hslots.symm
    exact ⟨{ shape := nil, state := s }, [], rfl, rfl, by simpa using hstore, fun _ => ⟨rfl, .nil⟩, by simp⟩
  | node color left slot right ihl ihr =>
    obtain ⟨lower, middle, rfl, hl, hmiddle⟩ := List.map_eq_append_iff.mp hslots.symm
    obtain ⟨⟨found, item⟩, upper, rfl, hfound, hr⟩ := List.map_eq_cons_iff.mp hmiddle
    obtain rfl : found = slot := hfound
    obtain ⟨fresh, new, s₁, hitem, hmake, h₁⟩ | ⟨failure, s₁, hitem, h₁, hfailure⟩ :=
      copyItem_spec make hstore (hread (found, item) (by simp))
    · have h₁ : s₁.store.Holds ((before ++ [(fresh, new)]) ++ after) o := by simpa using h₁
      obtain ⟨r, newUpper, hright, hrslots, h₂, hrdone, hrfailure⟩ :=
        ihr hr.symm (fun e he => hread e (by simp [he])) h₁
      cases hfailed : r.failure with
      | some failure =>
        obtain ⟨store, hrelease, h₃⟩ := h₂.releaseAll hrslots
        refine ⟨⟨node color nil fresh nil, some failure, { r.state with store }⟩, [(fresh, new)], ?_, rfl,
          h₃, by simp, ?_⟩
        · simp [copy, hitem, hright, hfailed, hrelease]
        · rintro _ ⟨rfl⟩
          apply (hrfailure _ hfailed).mono
          simp only [List.length_append, List.length_cons, List.length_nil]
          omega
      | none =>
        obtain ⟨houtline, hcopied⟩ := hrdone hfailed
        have h₂ : r.state.store.Holds (before ++ ((fresh, new) :: newUpper ++ after)) o := by simpa using h₂
        obtain ⟨l, newLower, hleft, hlslots, h₃, hldone, hlfailure⟩ :=
          ihl hl.symm (fun e he => hread e (by simp [he])) h₂
        refine ⟨⟨node color l.shape fresh r.shape, l.failure, l.state⟩, newLower ++ (fresh, new) :: newUpper,
          ?_, ?_, by simpa using h₃, ?_, ?_⟩
        · simp [copy, hitem, hright, hfailed, hleft]
        · simp [slots, hlslots, hrslots]
        · intro hdone
          obtain ⟨hloutline, hlcopied⟩ := hldone hdone
          exact ⟨by simp [outline, hloutline, houtline], List.rel_append hlcopied (.cons hmake hcopied)⟩
        · intro failure hstopped
          apply (hlfailure failure hstopped).mono
          have hlength := hcopied.length_eq
          simp only [List.length_append, List.length_cons]
          omega
    · refine ⟨⟨nil, some failure, s₁⟩, [], ?_, rfl, by simpa using h₁, by simp, ?_⟩
      · simp [copy, hitem]
      · rintro _ ⟨rfl⟩
        apply hfailure.mono
        simp only [List.length_append, List.length_cons]
        omega

end Shape

namespace Tree

variable {κ : Type} {key : α → κ} {t : Tree key} {entries : List (Slot × α)} {o' : Outside α}
  {store : Store α}

/-- Copying a tree answers with a whole copy, or with what stopped it and a
    store as empty as before. -/
theorem Represents.copyWith (h : t.Represents entries o) (make : Nat → α → Except ε α) (tag : UInt64)
    (hstore : store.Holds [] o') :
    ∃ replica, t.copyWith make store tag = .ok replica ∧
      ((∃ copy new, replica.result = .ok copy ∧ copy.Represents new o' ∧ copy.less = t.less ∧ copy.tag = tag ∧
        copy.shape.outline = t.shape.outline ∧ CopiedFrom make entries new) ∨
      ∃ failure rest, replica.result = .error (failure, rest) ∧ rest.Holds [] o' ∧
        StoppedBy make o' entries.length failure) := by
  have hempty : ({ store, given := [] } : Copying α).store.Holds ([] ++ []) o' := hstore
  obtain ⟨r, new, hrun, hslots, hnew, hdone, hfailure⟩ :=
    Shape.copy_spec make h.slots (fun e he => h.store.read he) hempty
  rw [List.nil_append, List.append_nil] at hnew
  cases hfailed : r.failure with
  | none =>
    obtain ⟨houtline, hcopied⟩ := hdone hfailed
    let copy : Tree key :=
      { shape := r.shape, leftmost := r.shape.extreme .left, rightmost := r.shape.extreme .right, size := t.size,
        less := t.less, store := r.state.store, tag }
    refine ⟨{ result := .ok copy, given := r.state.given.reverse }, by simp [Tree.copyWith, hrun, hfailed, copy],
      .inl ⟨copy, new, rfl, ?_, rfl, rfl, houtline, hcopied⟩⟩
    constructor
    · exact hslots
    · exact hnew
    · exact h.shape.of_outline houtline
    · simp only [copy, Shape.extreme_left, hslots, List.head?_map]
    · simp only [copy, Shape.extreme_right, hslots, List.getLast?_map]
    · exact h.size.trans hcopied.length_eq
  | some failure =>
    have hall : r.state.store.Holds ([] ++ new ++ []) o' := by simpa using hnew
    obtain ⟨rest, hrelease, hrest⟩ := hall.releaseAll hslots
    refine ⟨⟨.error (failure, rest), r.state.given.reverse, [.copyReleased t.size]⟩,
      by simp [Tree.copyWith, hrun, hfailed, hrelease], .inr ⟨failure, rest, rfl, hrest, ?_⟩⟩
    simpa using hfailure failure hfailed

/-- A copy in an arena of its own always comes about: its source has no more
    items than there are slots. -/
theorem Represents.clone (h : t.Represents entries o) (tag : UInt64) :
    ∃ copy new, t.clone (.arena .empty) tag = .ok copy ∧ copy.Represents new .idle ∧ copy.less = t.less ∧
      copy.tag = tag ∧ copy.shape.outline = t.shape.outline ∧ new.map Prod.snd = entries.map Prod.snd := by
  let make (_ : Nat) (item : α) : Except Empty α := .ok item
  obtain ⟨replica, hrun, ⟨copy, new, hresult, hcopy, hless, htag, houtline, hcopied⟩ |
    ⟨failure, rest, _, _, hstopped⟩⟩ := h.copyWith make tag Store.holds_empty
  · refine ⟨copy, new, ?_, hcopy, hless, htag, houtline, ?_⟩
    · have hcopyInto : t.copyInto (.arena .empty) tag = .ok replica := hrun
      simp [Tree.clone, hcopyInto, hresult]
    · exact hcopied.items_eq
  · cases failure with
    | alloc error =>
      obtain ⟨store, held, hheld, hroom, hlt⟩ := hstopped
      have hle := h.store.length_le
      exact absurd (hheld.hasRoom rfl (fun _ => rfl) (by omega)) hroom
    | construct error => exact error.elim

end Tree

end RedBlack
