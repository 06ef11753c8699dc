import RedBlack.Proofs.Forest
import RedBlack.Proofs.Tree.Failures
import RedBlack.Proofs.Tree.Lockstep
import RedBlack.Proofs.Tree.Ownership
import RedBlack.Tree.View

namespace RedBlack

namespace Tree

variable {α κ ε ε' : Type} {key : α → κ} {t u : Tree key} {entries : List (Slot × α)} {o o' : Outside α}

/-- Two stores over arenas that no request can tell apart; the slots keep their
    names, so that counterparts of positions are the positions themselves. -/
def SameSlots (σ : Equiv.Perm Slot) (s t : Store α) : Prop :=
  σ = .refl Slot ∧ s.base.Alike t.base

theorem linked_sameSlots : Store.Linked (SameSlots (α := α)) where
  allocated := by
    rintro _ s t s₁ t₁ a b ⟨rfl, halike⟩ hs ht
    obtain ⟨rfl, halike⟩ := halike.allocate (Store.allocate_eq_ok hs).1 (Store.allocate_eq_ok ht).1
    exact ⟨by simp [redirect], halike⟩
  refused := by
    rintro _ s t s₁ t₁ _ _ ⟨rfl, halike⟩ hs ht
    rw [← Store.base_forget s, ← Store.base_forget t, ← Store.forget_of_refused hs, ← Store.forget_of_refused ht,
      Store.base_forget, Store.base_forget] at halike
    exact ⟨rfl, halike⟩
  constructed := by
    rintro _ s t s₁ t₁ _ _ ⟨rfl, halike⟩ hs ht
    exact ⟨rfl, halike.construct (Store.construct_eq_ok hs) (Store.construct_eq_ok ht)⟩
  deallocated := by
    rintro _ s t s₁ t₁ _ _ _ ⟨rfl, halike⟩ hs ht
    exact ⟨rfl, halike.deallocate (Store.deallocate_eq_ok hs).1 (Store.deallocate_eq_ok ht).1⟩

section Move

variable {place : Position → Position}

theorem Request.move_eq_self {r : Request α κ ε} (h : ∀ p ∈ r.positions, place p = p) : r.move place = r := by
  cases r with
  | command c => cases c <;> simp_all [Request.move, Command.move, Request.positions, Command.positions]
  | inquiry q => cases q <;> simp_all [Request.move, Inquiry.move, Request.positions, Inquiry.positions]

theorem Reply.move_eq_self {reply : Reply α ε} (h : ∀ p ∈ reply.positions, place p = p) :
    reply.move place = reply := by
  cases reply with
  | unique answer => cases answer <;> simp_all [Reply.move, Reply.positions, Except.map, Prod.ext_iff]
  | equal answer => cases answer <;> simp_all [Reply.move, Reply.positions, Except.map]
  | uniqueWith answer =>
    obtain ⟨calls, result⟩ := answer
    cases result <;> simp_all [Reply.move, Reply.positions, Built.map, Except.map, Prod.ext_iff]
  | equalWith answer =>
    obtain ⟨calls, result⟩ := answer
    cases result <;> simp_all [Reply.move, Reply.positions, Built.map, Except.map]
  | _ => simp_all [Reply.move, Reply.positions]

theorem Response.move_eq_self {x : Response key ε} (h : ∀ p ∈ x.positions, place p = p) : x.move place = x := by
  cases x with
  | reply reply => rw [Response.move, Reply.move_eq_self h]
  | finding found => cases found <;> simp_all [Response.move, Finding.move, Response.positions, Finding.positions]

end Move

namespace Coupled

variable (h : t.Coupled SameSlots (.refl Slot) u entries o o')
include h

theorem counterpart_self {p : Position} (htag : u.tag = t.tag) (hp : t.LiveOrEnd p) : t.counterpart u p = p := by
  have hpairs : t.Pairs (.refl Slot) u p p := ⟨hp.1, hp.1.trans htag.symm, by simp, hp.2⟩
  exact (h.counterpart_eq hpairs).symm

theorem shape_eq : u.shape = t.shape :=
  h.shape.trans t.shape.rename_id

theorem eq_withStore (htag : u.tag = t.tag) : u = { t with store := u.store } := by
  have hshape := h.shape_eq
  have hleft : u.leftmost = t.leftmost := by simpa using h.leftmost.1
  have hright : u.rightmost = t.rightmost := by simpa using h.rightmost.1
  have hsize := h.size
  have hless := h.less
  obtain ⟨shape, leftmost, rightmost, size, less, store, tag⟩ := u
  simp only at hshape hleft hright hsize hless htag
  subst hshape hleft hright hsize hless htag
  rfl

/-- Both trees show the same nodes, with the same links and items. -/
theorem nodes : u.nodes = t.nodes := by
  have hread (own : List Shape.Links) (hown : ∀ l ∈ own, l.slot ∈ t.shape.slots) :
      own.mapM (fun l => do return (l, ← u.itemAt l.slot)) = own.mapM fun l => do return (l, ← t.itemAt l.slot) := by
    induction own with
    | nil => rfl
    | cons l rest ih =>
      obtain ⟨item, ht, hu⟩ := h.itemAt (hown l List.mem_cons_self)
      have hrest := ih fun m hm => hown m (List.mem_cons_of_mem _ hm)
      rw [Equiv.refl_apply] at hu
      rw [List.mapM_cons, List.mapM_cons, ht, hu, hrest]
  rw [Tree.nodes, Tree.nodes, h.shape_eq]
  refine hread _ fun l hl => ?_
  rw [← Shape.map_slot_links .header]
  exact List.mem_map_of_mem hl

end Coupled

/-- Two trees over arenas that are the same but for the slots that their arenas
    have released. -/
def Indistinct (t u : Tree key) : Prop :=
  u.tag = t.tag ∧ t.store.limits = false ∧ u.store.limits = false ∧
    ∃ entries o o', t.Coupled SameSlots (.refl Slot) u entries o o'

namespace Indistinct

theorem hasRoom_iff (h : t.Indistinct u) : t.store.HasRoom ↔ u.store.HasRoom := by
  obtain ⟨_, hlimits, hlimits', entries, o, o', h⟩ := h
  rw [Store.hasRoom_iff hlimits, Store.hasRoom_iff hlimits']
  exact h.store.2.hasRoom_iff

/-- One request is answered the same by both, and they stay the same. -/
theorem request {r : Request α κ ε} (h : t.Indistinct u) (hlive : r.OnLive t) :
    (r.run.run u).answer = (r.run.run t).answer ∧ (r.run.run t).state.Indistinct (r.run.run u).state := by
  have hroom := h.hasRoom_iff
  obtain ⟨htag, hlimits, hlimits', entries, o, o', h⟩ := h
  have hmove : r.move (t.counterpart u) = r :=
    Request.move_eq_self fun p hp => h.counterpart_self htag (hlive p hp)
  obtain ⟨halike, ht, hu, σ, after, h₁⟩ := h.request linked_sameSlots r hlive fun _ => hroom
  rw [hmove] at hu h₁
  have hanswer := halike.answer
  rw [hmove] at hanswer
  obtain rfl := h₁.store.1
  have htag₁ : (r.run.run u).state.tag = (r.run.run t).state.tag := by
    rw [hu.tag, ht.tag, htag]
  refine ⟨?_, htag₁, ?_, ?_, after, o, o', h₁⟩
  · have hsame : Matched (fun x y => y = id x) (r.run.run t).answer (r.run.run u).answer := by
      refine hanswer.mono ?_
      rintro x _ ⟨hx, rfl⟩
      exact Response.move_eq_self fun p hp => h₁.counterpart_self htag₁ (hx p hp)
    simpa using hsame.eq_map
  · rw [h₁.left.store.limits, ← h.left.store.limits, hlimits]
  · rw [h₁.right.store.limits, ← h.right.store.limits, hlimits']

theorem run {rs : List (Request α κ ε)} (h : t.Indistinct u) (hlive : StaysOnLive rs t) :
    replies rs u = replies rs t ∧ (after rs t).Indistinct (after rs u) := by
  induction rs generalizing t u with
  | nil => exact ⟨rfl, h⟩
  | cons r rest ih =>
    obtain ⟨hfirst, hrest⟩ := hlive
    obtain ⟨hanswer, h₁⟩ := h.request hfirst
    obtain ⟨hreplies, hafter⟩ := ih h₁ hrest
    exact ⟨by rw [replies, replies, hanswer, hreplies], hafter⟩

end Indistinct

/-- A tree that owns its store lies beside nothing else in it. -/
theorem OwnsStore.isIdle (howns : t.OwnsStore) (h : t.Represents entries o) : o.IsIdle where
  unused slot := by
    cases huse : o.use slot with
    | none => rfl
    | some content =>
      have hslot : slot ∉ entries.map Prod.fst := by
        intro hmem
        obtain ⟨e, he, rfl⟩ := List.mem_map.mp hmem
        rw [h.store.apart e he] at huse
        cases huse
      obtain ⟨c, hcell, hc⟩ := Arena.exists_cell_of_use ((h.store.others slot hslot).trans huse)
      cases c with
      | built item =>
        rw [← h.slots] at hslot
        exact absurd ((howns.built slot).mp ⟨item, hcell⟩) hslot
      | reserved => exact absurd hcell (howns.reserved slot)
      | free next => cases hc
  balanced n hn := by
    have hcounted : n + (entries.length : Int) = t.size := by
      refine howns.counted _ ?_
      rw [h.store.surplus]
      exact List.mem_map_of_mem hn
    rw [h.size] at hcounted
    omega

/-- What a request leaves that got no slot: nothing was built, and tree and
    store are as they were. -/
structure Refused (t u : Tree key) (calls : Nat) : Prop where
  calls : calls = 0
  tree : u = { t with store := u.store }
  /-- At most a record of calls shows the refusal. -/
  store : u.store.forget = t.store.forget
  unrecorded : t.store.keepsRecord = false → u = t

/-- No request that comes later is answered otherwise than if a tree had been
    left as it was, and no slot is used otherwise by the trees that the requests
    lead to, down to the numbers of the slots. -/
def AsIfNever (ε : Type) (t u : Tree key) : Prop :=
  ∀ rs : List (Request α κ ε), StaysOnLive rs t → replies rs u = replies rs t ∧
    after rs u = { after rs t with store := (after rs u).store } ∧ (after rs u).store.use = (after rs t).store.use

/-- What a request leaves whose constructor, called once, came back with an
    error: the tree as it was, and an arena that may have grown. -/
structure Unbuilt (t u : Tree key) (build? : Option (Unit → Except ε α)) (error : ε) (calls : Nat) : Prop where
  built : ∃ build, build? = some build ∧ build () = .error error
  calls : calls = 1
  /-- The tree is as it was, the links, colours and items of its nodes
      included. -/
  tree : u = { t with store := u.store }
  nodes : u.nodes = t.nodes
  /-- Every slot holds what it held, so none is left waiting for an item. -/
  use : u.store.use = t.store.use
  surplus : u.store.surplus = t.store.surplus
  owns : t.OwnsStore → u.OwnsStore
  /-- Each limited layer is one unit down. -/
  budgets : (∀ n ∈ t.store.budgets, 0 < n) ∧ u.store.budgets = t.store.budgets.map (· - 1)
  /-- In an arena it is as if nothing had been asked. -/
  later : t.store.limits = false → ∀ ε' : Type, AsIfNever ε' t u

theorem Indistinct.asIfNever (h : t.Indistinct u) : AsIfNever ε t u := by
  intro rs hlive
  obtain ⟨hreplies, htag, _, _, _, _, _, hcoupled⟩ := h.run hlive
  exact ⟨hreplies, hcoupled.eq_withStore htag, hcoupled.store.2.use⟩

/-- No request tells whether the store of a tree without limits is exchanged for
    one that is alike. -/
theorem Coupled.asIfNever {store : Store α} (h : t.Coupled SameSlots (.refl Slot) { t with store } entries o o)
    (hlimits : t.store.limits = false) : AsIfNever ε t { t with store } := by
  have hlimits' : store.limits = false := by
    rw [← hlimits, h.left.store.limits]
    exact h.right.store.limits
  exact Indistinct.asIfNever ⟨rfl, hlimits, hlimits', entries, o, o, h⟩

theorem refused_of_allocate {error : AllocError} {store : Store α}
    (hrun : t.store.allocate = .ok (.error error, store)) : t.Refused { t with store } 0 where
  calls := rfl
  tree := rfl
  store := Store.forget_of_refused hrun
  unrecorded hrecord := by rw [Store.eq_of_refused hrun hrecord]

namespace Represents

variable {slot : Slot} {reserved store : Store α} {content : Option α}

/-- A tree over a store that holds the same, on an arena that no request can
    tell apart from its own. -/
theorem coupled_of_alike (h : t.Represents entries o) (hheld : store.Holds entries o)
    (halike : t.store.base.Alike store.base) : t.Coupled SameSlots (.refl Slot) { t with store } entries o o where
  left := h
  right := by simpa using h.withStore hheld
  shape := t.shape.rename_id.symm
  less := rfl
  store := ⟨rfl, halike⟩

/-- A slot that was asked for and given back leaves the tree as it was. -/
theorem coupled_of_giveBack (h : t.Represents entries o) (hrun : t.store.allocate = .ok (.ok slot, reserved))
    (hback : reserved.deallocate slot = .ok (content, store)) :
    t.Coupled SameSlots (.refl Slot) { t with store } entries o o := by
  have hheld : store.Holds entries o := by
    obtain ⟨_, _, hrun', _, hfree, hreserved⟩ | ⟨_, hrun', _⟩ := h.store.allocate
    · cases hrun.symm.trans hrun'
      obtain ⟨_, hback', hheld⟩ := hreserved.deallocate hfree
      cases hback.symm.trans hback'
      exact hheld
    · cases hrun.symm.trans hrun'
  exact h.coupled_of_alike hheld (Arena.Sound.alike_of_allocate_deallocate h.store.sound (Store.allocate_eq_ok hrun).1
    (Store.deallocate_eq_ok hback).1)

theorem unbuilt {build : Unit → Except ε α} {error : ε} (h : t.Represents entries o) (hbuild : build () = .error error)
    (hrun : t.store.allocate = .ok (.ok slot, reserved)) (hback : reserved.deallocate slot = .ok (content, store)) :
    t.Unbuilt { t with store } (some build) error 1 := by
  have hcoupled := h.coupled_of_giveBack hrun hback
  have hright : ({ t with store } : Tree key).Represents entries o := by simpa using hcoupled.right
  obtain ⟨_, hpositive, hspent⟩ := Store.allocate_eq_ok hrun
  obtain ⟨_, hkept⟩ := Store.deallocate_eq_ok hback
  refine ⟨⟨build, rfl, hbuild⟩, rfl, rfl, hcoupled.nodes, hcoupled.store.2.use, ?_, ?_, ⟨hpositive, ?_⟩, ?_⟩
  · rw [hright.store.surplus, h.store.surplus]
  · exact fun howns => hright.ownsStore (howns.isIdle h)
  · rw [hkept, hspent]
  · exact fun hlimits _ => hcoupled.asIfNever hlimits

end Represents

/-- An insertion that fails is invisible. Without a slot nothing happens at all.
    If the item cannot be built, the tree is left as it was and the store but
    for its budgets too; in an arena no later request tells the difference. -/
theorem failed_insertion_leaves_no_trace {f : Forest key} {c : Command α κ ε} {x : Reply α ε}
    {failure : Failure ε} (hf : f.Reachable fun f (c : Forest.Command α κ ε') => c.Legal f) (ht : t ∈ f.trees)
    (hreply : (c.run.run t).answer = .ok x) (hfailure : x.failure? = some failure) :
    match failure with
    | .alloc _ => t.Refused (c.run.run t).state x.calls
    | .construct error => t.Unbuilt (c.run.run t).state c.build? error x.calls := by
  obtain ⟨entries, o, h⟩ := hf.represents ht
  have hfailed := c.failedOnly t
  unfold Action.wp at hfailed
  rw [hreply] at hfailed
  have hcase := hfailed failure hfailure
  generalize x.calls = calls, (c.run.run t).state = u at hcase ⊢
  cases hcase with
  | refused hrun => exact refused_of_allocate hrun
  | unbuilt hbuild hmade hrun hback =>
    rw [hbuild]
    exact h.unbuilt hmade hrun hback

/-- In an arena with one item a constructor fails, and the arena has one slot
    more than before. Under a limit of one item a constructor fails, and then
    the next insertion is refused. -/
theorem failed_insertion_leaves_no_trace_limited :
    ∃ (build : Unit → Except String Nat) (t u v w x : Tree (id : Nat → Nat)),
      t.store.limits = false ∧ t.store.capacity = 1 ∧ u.store.capacity = 2 ∧
      t.Unbuilt u (some build) "no item" 1 ∧ v.store.budgets = [1] ∧ v.Unbuilt w (some build) "no item" 1 ∧
      w.store.budgets = [0] ∧ w.Refused x 0 := by
  let build : Unit → Except String Nat := fun _ => .error "no item"
  have h₀ : Forest.Reachable (fun f (c : Forest.Command Nat Nat String) => c.Legal f) (.empty (id : Nat → Nat)) :=
    .empty
  have h₁ := h₀.step (c := .plant (fun a b => decide (a < b)) (.arena .empty)) Arena.sound_empty
  have h₂ := h₁.step (c := .onTree 0 (.insertUnique 5)) ⟨_, rfl, trivial⟩
  have h₃ := h₂.step (c := .plant (fun a b => decide (a < b)) (.limited (.arena .empty) 1)) Arena.sound_empty
  have h₄ := h₃.step (c := .onTree 1 (.insertEqualWith build)) ⟨_, rfl, trivial⟩
  have hunbuilt := failed_insertion_leaves_no_trace h₃ (Array.mem_of_getElem? (i := 0) rfl)
    (c := .insertUniqueWith build) (x := .uniqueWith ⟨1, .error (.construct "no item")⟩) rfl rfl
  have hunbuilt' := failed_insertion_leaves_no_trace h₃ (Array.mem_of_getElem? (i := 1) rfl)
    (c := .insertEqualWith build) (x := .equalWith ⟨1, .error (.construct "no item")⟩) rfl rfl
  have hrefused := failed_insertion_leaves_no_trace h₄ (Array.mem_of_getElem? (i := 1) rfl)
    (c := .insertUnique 7) (x := (.unique (.error .noSlot) : Reply Nat String)) rfl rfl
  exact ⟨build, _, _, _, _, _, rfl, rfl, rfl, hunbuilt, rfl, hunbuilt', rfl, hrefused⟩

end Tree

end RedBlack
