import RedBlack.Proofs.Tree.Coupling

namespace RedBlack

variable {α κ ε β : Type} {key : α → κ} {K : Equiv.Perm Slot → Store α → Store α → Prop} {σ : Equiv.Perm Slot}
  {entries : List (Slot × α)} {o o' : Outside α}

/-- A copy takes nothing from its source but colours and items. -/
theorem Shape.copy_rename {f : Slot → Slot} {source source' : Store α} (make : Nat → α → Except ε α) (t : Shape)
    (s : Copying α) (hread : ∀ slot ∈ t.slots, source'.read (f slot) = source.read slot) :
    (t.rename f).copy source' make s = t.copy source make s := by
  induction t generalizing s with
  | nil => rfl
  | node color left slot right ihl ihr =>
    simp only [slots, List.mem_append, List.mem_cons] at hread
    have hl (s : Copying α) := ihl s fun slot hslot => hread slot (.inl hslot)
    have hr (s : Copying α) := ihr s fun slot hslot => hread slot (.inr (.inr hslot))
    have hitem : copyItem source' make (f slot) s = copyItem source make slot s := by
      simp only [copyItem, hread slot (.inr (.inl rfl))]
    simp only [rename_node, copy, hitem, hl, hr]

namespace Tree

variable {t u : Tree key} {p q : Position}

theorem Pairs.own (h : t.Pairs σ u p q) : Matched (t.Corresponds σ) (t.own p) (u.own q) := by
  obtain ⟨hp, hq, hslots⟩ := h
  rw [Tree.own, Tree.own, if_pos hp, if_pos hq]
  exact hslots

namespace Coupled

variable (h : t.Coupled K σ u entries o o')
include h

theorem counterpart_eq (hpq : t.Pairs σ u p q) : q = t.counterpart u p := by
  obtain ⟨slot, tag⟩ := p
  obtain ⟨slot', tag'⟩ := q
  obtain ⟨_, htag, hslot, hmem⟩ := hpq
  simp only [counterpart, Position.mk.injEq] at htag hslot hmem ⊢
  refine ⟨?_, htag⟩
  rw [hslot]
  cases slot with
  | none => rfl
  | some slot =>
    have hindex := List.idxOf_lt_length_of_mem (hmem slot rfl)
    rw [h.shape, Shape.slots_rename]
    simp [List.getElem?_eq_getElem hindex]

theorem pairs_counterpart (hp : t.LiveOrEnd p) : t.Pairs σ u p (t.counterpart u p) := by
  have hpairs : t.Pairs σ u p ⟨p.slot.map σ, u.tag⟩ := ⟨hp.1, rfl, rfl, hp.2⟩
  rwa [h.counterpart_eq hpairs] at hpairs

theorem get (hpq : t.Pairs σ u p q) : Matched Eq (t.get p) (u.get q) := by
  refine hpq.own.bind ?_
  rintro a _ ⟨rfl, hmem⟩
  cases a with
  | none => rfl
  | some slot =>
    obtain ⟨item, ht, hu⟩ := h.itemAt (hmem slot rfl)
    simp only [Option.map_some, ht, hu]
    rfl

theorem next (hpq : t.Pairs σ u p q) : Matched (t.Pairs σ u) (t.next p) (u.next q) := by
  refine hpq.own.bind fun a b hab => ?_
  exact (h.successor hab).bind fun _ _ => position_pairs

theorem prev (hpq : t.Pairs σ u p q) : Matched (t.Pairs σ u) (t.prev p) (u.prev q) := by
  refine hpq.own.bind fun a b hab => ?_
  refine (h.predecessor hab).bind ?_
  rintro before _ ⟨rfl, hbefore⟩
  exact position_pairs (.some hbefore)

theorem start : t.Pairs σ u t.start u.start :=
  position_pairs h.leftmost

theorem last? : Matched Eq t.last? u.last? := by
  rw [Tree.last?, Tree.last?, h.isEmpty]
  split
  · rfl
  · refine h.rightmost.dereference.bind ?_
    rintro last _ ⟨rfl, hlast⟩
    obtain ⟨item, ht, hu⟩ := h.itemAt hlast
    rw [ht, hu]
    rfl

theorem items : u.items = t.items := by
  rw [h.left.items, h.right.items]
  simp [List.map_map, Function.comp_def]

theorem copyWith (make : Nat → α → Except ε α) (store : Store α) (tag : UInt64) :
    u.copyWith make store tag = t.copyWith make store tag := by
  have hcopy (s : Copying α) := t.shape.copy_rename (f := σ) make s fun slot hslot => by
    obtain ⟨item, ht, hu⟩ := h.itemAt hslot
    exact hu.trans ht.symm
  simp only [Tree.copyWith, h.shape, hcopy, h.size, h.less]

end Coupled

end Tree

namespace Walk

variable {w w' : Walk key β}

/-- Two walks over such trees that have corresponding items left. -/
structure Coupled (K : Equiv.Perm Slot → Store α → Store α → Prop) (σ : Equiv.Perm Slot) (w w' : Walk key β)
    (entries : List (Slot × α)) (o o' : Outside α) : Prop where
  tree : w.tree.Coupled K σ w'.tree entries o o'
  view : w'.view = w.view
  front : w.tree.Corresponds σ w.front w'.front
  back : w.tree.Corresponds σ w.back w'.back
  remaining : w'.remaining = w.remaining

namespace Coupled

variable (h : w.Coupled K σ w' entries o o')
include h

theorem meet_iff : w'.front = w'.back ↔ w.front = w.back := by
  rw [h.front.1, h.back.1, Tree.map_eq_iff]

theorem forward : Matched (fun x y => x.1 = y.1 ∧ x.2.Coupled K σ y.2 entries o o') w.forward w'.forward := by
  rw [Walk.forward, Walk.forward]
  simp only [h.meet_iff, h.remaining, h.view]
  split
  · exact ⟨rfl, h⟩
  · refine (h.tree.successor h.front).bind fun front front' hfront => ?_
    refine (Matched.of_eq rfl).bind ?_
    rintro remaining _ rfl
    refine h.front.dereference.bind ?_
    rintro slot _ ⟨rfl, hslot⟩
    obtain ⟨item, ht, hu⟩ := h.tree.itemAt hslot
    rw [ht, hu]
    exact ⟨rfl, h.tree, rfl, hfront, h.back, rfl⟩

theorem backward : Matched (fun x y => x.1 = y.1 ∧ x.2.Coupled K σ y.2 entries o o') w.backward w'.backward := by
  rw [Walk.backward, Walk.backward]
  simp only [h.meet_iff, h.remaining, h.view]
  split
  · exact ⟨rfl, h⟩
  · refine (h.tree.predecessor h.back).bind ?_
    rintro back _ ⟨rfl, hback⟩
    refine (Matched.of_eq rfl).bind ?_
    rintro remaining _ rfl
    obtain ⟨item, ht, hu⟩ := h.tree.itemAt hback
    rw [ht, hu]
    exact ⟨rfl, h.tree, rfl, h.front, .some hback, rfl⟩

theorem advance (side : Side) :
    Matched (fun x y => x.1 = y.1 ∧ x.2.Coupled K σ y.2 entries o o') (w.advance side) (w'.advance side) := by
  cases side with
  | left => exact h.forward
  | right => exact h.backward

omit h in
/-- Both walks give the same items, whatever is asked of them. -/
theorem follow (h : w.Coupled K σ w' entries o o') (script : List Side) :
    Matched (fun x y => x.1 = y.1) (w.follow script) (w'.follow script) := by
  induction script generalizing w w' with
  | nil => rfl
  | cons side script ih =>
    refine (h.advance side).bind ?_
    rintro ⟨item, v⟩ ⟨_, v'⟩ ⟨rfl, hv⟩
    refine (ih hv).bind ?_
    rintro ⟨items, _⟩ ⟨_, _⟩ rfl
    rfl

omit h in
theorem take (h : w.Coupled K σ w' entries o o') (side : Side) (limit : Nat) :
    Matched (fun x y => x.1 = y.1) (w.take side limit) (w'.take side limit) := by
  induction limit generalizing w w' with
  | zero => rfl
  | succ limit ih =>
    refine (h.advance side).bind ?_
    rintro ⟨item, v⟩ ⟨_, v'⟩ ⟨rfl, hv⟩
    cases item with
    | none => rfl
    | some item =>
      refine (ih hv).bind ?_
      rintro ⟨items, _⟩ ⟨_, _⟩ rfl
      rfl

theorem rest (side : Side) : Matched (fun x y => x.1 = y.1) (w.rest side) (w'.rest side) := by
  rw [Walk.rest, Walk.rest, h.tree.size]
  exact h.take side _

end Coupled

end Walk

namespace Tree

variable {t u : Tree key} {p q p' q' : Position}

namespace Coupled

variable (h : t.Coupled K σ u entries o o')
include h

theorem walk : t.walk.Coupled K σ u.walk entries o o' :=
  ⟨h, rfl, h.leftmost, .none, congrArg some h.size⟩

theorem walkRange (hp : t.Pairs σ u p p') (hq : t.Pairs σ u q q') :
    Matched (fun w w' => w.Coupled K σ w' entries o o') (t.walkRange p q) (u.walkRange p' q') :=
  hp.own.bind fun _ _ hfront => hq.own.bind fun _ _ hback => ⟨h, rfl, hfront, hback, rfl⟩

theorem count (k : κ) : Query.Matched Eq (t.count k) (u.count k) := by
  refine Query.Matched.bind (R := fun w w' => w.Coupled K σ w' entries o o') ?_ ?_
  · refine (h.equalRange k).bind ?_
    rintro ⟨first, last⟩ ⟨first', last'⟩ ⟨hfirst, hlast⟩
    exact .lift (h.walkRange hfirst hlast)
  · intro w w' hw
    refine Query.Matched.bind (.lift (hw.rest .left)) ?_
    rintro ⟨items, _⟩ ⟨_, _⟩ rfl
    exact .pure rfl

/-- Positions that go with each other are named as mirror images. -/
theorem named (hpq : t.Pairs σ u p q) : t.LiveOrEnd p ∧ q = t.counterpart u p :=
  ⟨⟨hpq.1, hpq.2.2.2⟩, h.counterpart_eq hpq⟩

omit h in
/-- Two trees that come to the same answer, which names no position, say so in
    their findings. -/
theorem shown {ρ : Type} {x y : Query κ ρ} {f : ρ → Finding key ε} (hxy : Query.Matched Eq x y)
    (hpositions : ∀ answer, (f answer).positions = []) (hmove : ∀ place answer, (f answer).move place = f answer) :
    Query.Matched (Finding.Mirrors t u) (do return f (← x)) (do return f (← y)) := by
  refine hxy.bind ?_
  rintro answer _ rfl
  exact .pure (.plain (hpositions answer) (hmove _ answer))

/-- Every inquiry at positions of the tree is answered by the other tree at the
    corresponding positions. An answer either names positions, which go to their
    counterparts, or is the same for both trees. -/
theorem inquiry (r : Inquiry α κ ε) (hlive : ∀ p ∈ r.positions, t.LiveOrEnd p) :
    Query.Matched (fun x y => x.Mirrors t u y) (r.answer t) ((r.move (t.counterpart u)).answer u) := by
  have hposition {p q : Position} (hpq : t.Pairs σ u p q) :
      (Finding.position p : Finding key ε).Mirrors t u (.position q) := by
    obtain ⟨hp, rfl⟩ := h.named hpq
    exact ⟨by simpa [Finding.positions] using hp, rfl⟩
  have hpairs (p : Position) (hp : p ∈ r.positions) := h.pairs_counterpart (hlive p hp)
  cases r with
  | start => exact .pure (hposition h.start)
  | finish => exact .pure (hposition (position_pairs .none))
  | size =>
    refine .pure ?_
    rw [h.size]
    exact .plain rfl rfl
  | first => exact shown (.lift (h.get h.start)) (fun _ => rfl) fun _ _ => rfl
  | last => exact shown (.lift h.last?) (fun _ => rfl) fun _ _ => rfl
  | get p =>
    have hp := hpairs p (by simp [Inquiry.positions])
    exact shown (.lift (h.get hp)) (fun _ => rfl) fun _ _ => rfl
  | next p =>
    refine Query.Matched.bind (.lift (h.next (hpairs p (by simp [Inquiry.positions])))) ?_
    intro next next' hnext
    exact .pure (hposition hnext)
  | prev p =>
    refine Query.Matched.bind (.lift (h.prev (hpairs p (by simp [Inquiry.positions])))) ?_
    intro before before' hbefore
    exact .pure (hposition hbefore)
  | equalRange k =>
    refine (h.equalRange k).bind ?_
    rintro ⟨first, last⟩ ⟨first', last'⟩ ⟨hfirst, hlast⟩
    obtain ⟨hlower, rfl⟩ := h.named hfirst
    obtain ⟨hupper, rfl⟩ := h.named hlast
    exact .pure ⟨by simpa [Finding.positions] using ⟨hlower, hupper⟩, rfl⟩
  | count k => exact shown (h.count k) (fun _ => rfl) fun _ _ => rfl
  | items => exact shown (.lift (.of_eq h.items)) (fun _ => rfl) fun _ _ => rfl
  | walk script =>
    refine Query.Matched.bind (.lift (h.walk.follow script)) ?_
    rintro ⟨items, _⟩ ⟨_, _⟩ rfl
    exact .pure (.plain rfl rfl)
  | walkRange first last script =>
    have hfirst := hpairs first (by simp [Inquiry.positions])
    have hlast := hpairs last (by simp [Inquiry.positions])
    refine Query.Matched.bind (.lift (h.walkRange hfirst hlast)) ?_
    intro w w' hw
    refine Query.Matched.bind (.lift (hw.follow script)) ?_
    rintro ⟨items, _⟩ ⟨_, _⟩ rfl
    exact .pure (.plain rfl rfl)
  | copy make store tag =>
    exact shown (.lift (.of_eq (h.copyWith make store tag))) (fun _ => rfl) fun _ _ => rfl

end Coupled

end Tree

end RedBlack
