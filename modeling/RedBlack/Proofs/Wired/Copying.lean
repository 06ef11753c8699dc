import RedBlack.Proofs.Tree.Replica
import RedBlack.Proofs.Wired.Carrying
import RedBlack.Proofs.Wired.Sprouts

namespace RedBlack

open Shape (Links)

namespace Store

variable {α : Type}

/-- The node that a link leads to. -/
def node (s : Store (Links × α)) : Handle → Except Fault (Links × α)
  | .node slot => s.read slot
  | link => .error (.dereference link)

end Store

namespace Rewiring

variable {α ε : Type}

/-- Releases a node and everything below it. -/
def destroy (limit : Nat) (top : Handle) : Rewiring α Unit := do
  let g ← get
  let store ← (g.store.releaseBelow limit top : OptionT (Except Fault) _)
  set { g with store }

section Copy

variable (source : Store (Links × α)) (make : Nat → α → Except ε α)

/-- Copies a node of another tree, with its colour, into a slot of its own,
    where it hangs nowhere yet; where the item cannot be built that is given
    back. What is given to the copying function is counted. -/
def cloneNode (x : Handle) (given : List α) : Rewiring α (Except (Failure ε) Slot × List α) := do
  match ← request Store.allocate with
  | .error error => return (.error (.alloc error), given)
  | .ok fresh =>
    let node ← source.node x
    match make given.length node.2 with
    | .ok item =>
      request fun s => do return ((), ← s.construct fresh (⟨fresh, node.1.color, .nil, .nil, .nil⟩, item))
      return (.ok fresh, node.2 :: given)
    | .error error =>
      let _ ← request (Store.deallocate fresh)
      return (.error (.construct error), node.2 :: given)

/-- Copies the subtree under a node of another tree and hangs it under a parent.
    What was copied of one that fails is released. -/
def copySubtree (spine : Handle → Slot → List α → Rewiring α (Option (Failure ε) × List α)) (limit : Nat)
    (x parent : Handle) (given : List α) : Rewiring α (Except (Failure ε) Slot × List α) := do
  match ← cloneNode source make x given with
  | (.error failure, given) => return (.error failure, given)
  | (.ok top, given) =>
    setParent (.node top) parent
    match ← spine x top given with
    | (none, given) => return (.ok top, given)
    | (some failure, given) =>
      destroy limit (.node top)
      return (.error failure, given)

/-- Copies what hangs on the right of a node of another tree, if anything does,
    and hangs it under the copy. -/
def copyRight (spine : Handle → Slot → List α → Rewiring α (Option (Failure ε) × List α)) (limit : Nat)
    (right : Handle) (top : Slot) (given : List α) : Rewiring α (Option (Failure ε) × List α) := do
  if right = .nil then return (none, given)
  else
    match ← copySubtree source make spine limit right (.node top) given with
    | (.error failure, given) => return (some failure, given)
    | (.ok copied, given) =>
      setChild .right (.node top) (.node copied)
      return (none, given)

/-- Copies the node on the left of one of another tree, if there is one, hangs
    it under the copy and goes on there. -/
def copyLeft (spine : Handle → Slot → List α → Rewiring α (Option (Failure ε) × List α)) (left : Handle) (top : Slot)
    (given : List α) : Rewiring α (Option (Failure ε) × List α) := do
  if left = .nil then return (none, given)
  else
    match ← cloneNode source make left given with
    | (.error failure, given) => return (some failure, given)
    | (.ok y, given) =>
      setChild .left (.node top) (.node y)
      setParent (.node y) (.node top)
      spine left y given

/-- Copies everything below a node of another tree under the copy of that, down
    the left spine and to the right of each node on it first. What stopped it is
    told, and what it copied is left to be released. -/
def copySpine : Nat → Handle → Slot → List α → Rewiring α (Option (Failure ε) × List α)
  | 0, _, _, _ => failure
  | limit + 1, x, top, given => do
    let right := (← source.node x).1.right
    match ← copyRight source make (copySpine limit) limit right top given with
    | (some failure, given) => return (some failure, given)
    | (none, given) =>
      let left := (← source.node x).1.left
      copyLeft source make (copySpine limit) left top given

end Copy

/-- Makes the top of a copy the root of a tree, and finds the ends of that. -/
def adopt (limit : Nat) (top : Handle) (size : Nat) : Rewiring α Unit := do
  setRoot top
  setLeftmost (← outermost .left limit top)
  setRightmost (← outermost .right limit top)
  modify fun g => { g with size }

/-- Copies another tree into one without nodes. Where a slot or an item cannot
    be had, everything copied so far is released, and what stopped the copy is
    told. -/
def copyTree (source : Wired α) (make : Nat → α → Except ε α) :
    Rewiring α (Except (Failure ε) Unit × List α) := do
  if source.root = .nil then return (.ok (), [])
  else
    let limit := source.size + 1
    match ← copySubtree source.store make (copySpine source.store make limit) limit source.root .header [] with
    | (.error failure, given) => return (.error failure, given)
    | (.ok top, given) =>
      adopt limit (.node top) source.size
      return (.ok (), given)

end Rewiring

namespace Shape

variable {α ε : Type} {source : Store α} {make : Nat → α → Except ε α} {color : Color} {left right : Shape}
  {slot top : Slot} {s : Copying α} {r : Partial ε α}

/-- Copies what is below a node that was copied into the slot `top`. -/
def copyBelow (source : Store α) (make : Nat → α → Except ε α) (color : Color) (left : Shape) (top : Slot)
    (right : Shape) (s : Copying α) : Except Fault (Partial ε α) := do
  let r ← right.copy source make s
  match r.failure with
  | some failure =>
    let store ← r.shape.releaseAll r.state.store
    return { shape := node color nil top nil, failure := some failure, state := { r.state with store } }
  | none =>
    let l ← left.copy source make r.state
    return { shape := node color l.shape top r.shape, failure := l.failure, state := l.state }

theorem copy_node (color : Color) (left : Shape) (slot : Slot) (right : Shape) (s : Copying α) :
    (node color left slot right).copy source make s = (do
      match ← copyItem source make slot s with
      | (.error failure, s) => return { shape := nil, failure := some failure, state := s }
      | (.ok fresh, s) => copyBelow source make color left fresh right s) :=
  rfl

/-- A copy that fails on the right keeps nothing but its top; else it goes on to
    the left. -/
theorem copyBelow_cases (h : copyBelow source make color left top right s = .ok r) :
    ∃ rr, right.copy source make s = .ok rr ∧
      ((∃ failure store, rr.failure = some failure ∧ rr.shape.releaseAll rr.state.store = .ok store ∧
          r = { shape := node color nil top nil, failure := some failure, state := { rr.state with store } }) ∨
        rr.failure = none ∧ ∃ l, left.copy source make rr.state = .ok l ∧
          r = { shape := node color l.shape top rr.shape, failure := l.failure, state := l.state }) := by
  obtain ⟨rr, hright, h⟩ := bind_eq_ok.mp h
  refine ⟨rr, hright, ?_⟩
  cases hfailed : rr.failure with
  | some failure =>
    simp only [hfailed] at h
    obtain ⟨store, hstore, h⟩ := bind_eq_ok.mp h
    exact .inl ⟨failure, store, rfl, hstore, (Except.ok.inj h).symm⟩
  | none =>
    simp only [hfailed] at h
    obtain ⟨l, hleft, h⟩ := bind_eq_ok.mp h
    exact .inr ⟨rfl, l, hleft, (Except.ok.inj h).symm⟩

theorem slot?_copyBelow (h : copyBelow source make color left top right s = .ok r) : r.shape.slot? = some top := by
  obtain ⟨_, _, ⟨_, _, _, _, rfl⟩ | ⟨_, _, _, rfl⟩⟩ := copyBelow_cases h <;> rfl

theorem height_copy {t : Shape} (h : t.copy source make s = .ok r) : r.shape.height ≤ t.height := by
  induction t generalizing s r with
  | nil =>
    obtain rfl := Except.ok.inj h
    exact Nat.le_refl 0
  | node color left slot right ihl ihr =>
    rw [copy_node] at h
    obtain ⟨⟨answer, s₁⟩, _, h⟩ := bind_eq_ok.mp h
    cases answer with
    | error failure =>
      obtain rfl := Except.ok.inj h
      exact Nat.zero_le _
    | ok fresh =>
      obtain ⟨rr, hright, ⟨_, _, _, _, rfl⟩ | ⟨_, l, hleft, rfl⟩⟩ := copyBelow_cases h
      · simp only [height]
        omega
      · have hl := ihl hleft
        have hr := ihr hright
        simp only [height]
        omega

theorem height_copyBelow (slot : Slot) (h : copyBelow source make color left top right s = .ok r) :
    r.shape.height ≤ (node color left slot right).height := by
  obtain ⟨rr, hright, ⟨_, _, _, _, rfl⟩ | ⟨_, l, hleft, rfl⟩⟩ := copyBelow_cases h
  · simp only [height]
    omega
  · have hl := height_copy hleft
    have hr := height_copy hright
    simp only [height]
    omega

end Shape

namespace Rewiring

variable {α ε : Type} {source s₀ s₁ : Store (Links × α)} {make : Nat → α → Except ε α} {d : Wired α} {slot top : Slot}
  {line : Links} {item : α} {s s' : Copying α} {r : Partial ε α} {parent sp : Handle} {color : Color}
  {left right shape : Shape} {limit : Nat} {spine : Handle → Slot → List α → Rewiring α (Option (Failure ε) × List α)}

theorem leads_lift {ρ : Type} {x : Except Fault ρ} {v : ρ} (h : x = .ok v) (g : Wired α) :
    (liftM x : Rewiring α ρ).Leads g v g := by
  rw [h]
  rfl

/-- A node is copied where the store has a slot for it and its item can be
    built, and nothing else is changed. -/
theorem leads_cloneNode {answer : Except (Failure ε) Slot} (hread : source.read slot = .ok (line, item))
    (hstore : s₁.map Prod.snd = s.store)
    (hrun : Shape.copyItem (source.map Prod.snd) make slot s = .ok (answer, s')) :
    ∃ s₂, (cloneNode source make (.node slot) s.given).Leads { d with store := s₁ } (answer, s'.given)
        { d with store := s₂ } ∧ s₂.map Prod.snd = s'.store ∧ s₁.Keeps s₂ ∧
      ∀ fresh, answer = .ok fresh → s₁.Sprouts s₂ .nil (.leaf line.color fresh) := by
  obtain ⟨⟨given, after⟩, hallocate, hrun⟩ := bind_eq_ok.mp hrun
  rw [← hstore, Store.allocate_map] at hallocate
  obtain ⟨⟨given', t⟩, hgiven, heq⟩ := map_eq_ok.mp hallocate
  obtain ⟨rfl, rfl⟩ := Prod.mk.inj heq
  have hkeeps : s₁.Keeps t := fun slot node hnode => Store.read_of_allocate hgiven hnode
  have hrequest : (request Store.allocate : Rewiring α _).Leads { d with store := s₁ } given' { d with store := t } :=
    leads_request _ hgiven
  cases given' with
  | error error =>
    obtain ⟨rfl, rfl⟩ := Prod.mk.inj (Except.ok.inj hrun)
    exact ⟨t, hrequest.bind (.pure _ _), rfl, hkeeps, nofun⟩
  | ok fresh =>
    obtain ⟨hunbuilt, _⟩ := Store.cells_of_allocate hgiven
    have hnode : (source.node (.node slot) : Except Fault _) = .ok (line, item) := hread
    have hitem : (source.map Prod.snd).read slot = .ok item := by
      rw [Store.read_map, hread]
      rfl
    simp only [hitem, ok_bind] at hrun
    cases hmake : make s.given.length item with
    | ok new =>
      simp only [hmake] at hrun
      obtain ⟨after, hconstruct, hrun⟩ := bind_eq_ok.mp hrun
      obtain ⟨rfl, rfl⟩ := Prod.mk.inj (Except.ok.inj hrun)
      let node : Links × α := (⟨fresh, line.color, .nil, .nil, .nil⟩, new)
      rw [show new = node.2 from rfl, Store.construct_map] at hconstruct
      obtain ⟨s₂, hmade, rfl⟩ := map_eq_ok.mp hconstruct
      have hkeeps₂ : t.Keeps s₂ := fun slot node hnode => Store.read_of_construct hmade hnode
      have hput : (request fun s => do return ((), ← s.construct fresh node) : Rewiring α Unit).Leads
          { d with store := t } () { d with store := s₂ } := leads_request _ (by simp [hmade])
      refine ⟨s₂, hrequest.bind ((leads_lift hnode _).bind ?_), rfl, hkeeps.trans hkeeps₂, ?_⟩
      · simp only [hmake]
        exact hput.bind (.pure _ _)
      · intro _ heq
        obtain rfl := Except.ok.inj heq
        refine ⟨hkeeps.trans hkeeps₂, ?_, List.nodup_singleton _, ?_⟩
        · intro l hl
          obtain rfl := List.mem_singleton.mp (show l ∈ [⟨fresh, line.color, .nil, .nil, .nil⟩] from hl)
          exact ⟨new, (Store.cells_of_construct hmade).2.1⟩
        · intro slot hslot
          obtain rfl := List.mem_singleton.mp (show slot ∈ [fresh] from hslot)
          exact hunbuilt
    | error error =>
      simp only [hmake] at hrun
      obtain ⟨⟨content, after⟩, hback, hrun⟩ := bind_eq_ok.mp hrun
      obtain ⟨rfl, rfl⟩ := Prod.mk.inj (Except.ok.inj hrun)
      rw [Store.deallocate_map] at hback
      obtain ⟨⟨content', s₂⟩, hreturned, heq⟩ := map_eq_ok.mp hback
      obtain ⟨_, rfl⟩ := Prod.mk.inj heq
      have hkeeps₂ : s₁.Keeps s₂ := by
        intro other node hnode
        have hne : other ≠ fresh := fun heq => hunbuilt node (heq ▸ hnode)
        exact Store.read_of_cells_eq (Store.cells_of_deallocate hreturned other hne) (hkeeps other node hnode)
      have hback : (request (Store.deallocate fresh) : Rewiring α _).Leads { d with store := t } content'
          { d with store := s₂ } := leads_request _ hreturned
      refine ⟨s₂, hrequest.bind ((leads_lift hnode _).bind ?_), rfl, hkeeps₂, nofun⟩
      simp only [hmake]
      exact hback.bind (.pure _ _)

/-- A subtree that sprouted is released, and what was there before is left as it
    was. -/
theorem leads_destroy {s₂ : Store (Links × α)} {released : Store α} (h : s₁.Sprouts s₂ parent shape)
    (htop : shape.slot? = some top) (hlimit : shape.height ≤ limit)
    (hreleased : shape.releaseAll (s₂.map Prod.snd) = .ok released) :
    ∃ s₃, (destroy limit (.node top)).Leads { d with store := s₂ } () { d with store := s₃ } ∧ s₁.Keeps s₃ ∧
      s₃.map Prod.snd = released := by
  obtain ⟨s₃, hrun, hreverse, hsame⟩ := (Store.Heads.of_links h.lines).exists_released h.nodup
  refine ⟨s₃, ?_, ?_, Except.ok.inj (hsame.symm.trans hreleased)⟩
  · refine (leads_get _).bind ?_
    have hend : s₂.releaseBelow limit (.node top) = (pure s₃ : OptionT (Except Fault) _) := by
      have hends := hrun limit hlimit
      rwa [htop] at hends
    rw [hend]
    rfl
  · intro slot node hread
    have hslot : slot ∉ shape.slots := fun hmem => h.fresh slot hmem node hread
    exact Store.read_of_cells_eq (hreverse.others slot hslot) (h.keeps slot node hread)

/-- The program copies what is below the top of every shape that is not too
    high. -/
def CopiesBelow (source : Store (Links × α)) (make : Nat → α → Except ε α) (limit : Nat)
    (spine : Handle → Slot → List α → Rewiring α (Option (Failure ε) × List α)) : Prop :=
  ∀ {d : Wired α} {s₀ s₁ : Store (Links × α)} {sp parent : Handle} {color : Color} {left right : Shape}
    {slot top : Slot} {s : Copying α} {r : Partial ε α}, source.Lines sp (.node color left slot right) →
    (Shape.node color left slot right).height ≤ limit → s₀.Sprouts s₁ parent (.leaf color top) →
    s₁.map Prod.snd = s.store → Shape.copyBelow (source.map Prod.snd) make color left top right s = .ok r →
    ∃ s₂, (spine (.node slot) top s.given).Leads { d with store := s₁ } (r.failure, r.state.given)
        { d with store := s₂ } ∧
      s₀.Sprouts s₂ parent r.shape ∧ s₂.map Prod.snd = r.state.store

/-- A subtree is copied as a whole, or released as far as it was copied; what
    the store held before is as it was either way. -/
theorem leads_copySubtree (hspine : CopiesBelow source make limit spine) (parent : Handle)
    (hsource : source.Lines sp (.node color left slot right))
    (hlimit : (Shape.node color left slot right).height ≤ limit) (hstore : s₁.map Prod.snd = s.store)
    (hr : (Shape.node color left slot right).copy (source.map Prod.snd) make s = .ok r) :
    (r.failure = none → ∃ top s₂, r.shape.slot? = some top ∧
      (copySubtree source make spine limit (.node slot) parent s.given).Leads { d with store := s₁ }
        (.ok top, r.state.given) { d with store := s₂ } ∧
      s₁.Sprouts s₂ parent r.shape ∧ s₂.map Prod.snd = r.state.store) ∧
    ∀ failure released, r.failure = some failure → r.shape.releaseAll r.state.store = .ok released →
      ∃ s₂, (copySubtree source make spine limit (.node slot) parent s.given).Leads { d with store := s₁ }
        (.error failure, r.state.given) { d with store := s₂ } ∧ s₁.Keeps s₂ ∧ s₂.map Prod.snd = released := by
  rw [Shape.copy_node] at hr
  obtain ⟨⟨answer, s'⟩, hitem, hr⟩ := bind_eq_ok.mp hr
  obtain ⟨item, hread⟩ := hsource ⟨slot, color, sp, .ofChild left.slot?, .ofChild right.slot?⟩ (by simp [Shape.links])
  obtain ⟨t₁, hclone, hstore', hkeeps, hfresh⟩ := leads_cloneNode (d := d) hread hstore hitem
  cases answer with
  | error failure =>
    obtain rfl := Except.ok.inj hr
    refine ⟨fun hnone => absurd hnone (Option.some_ne_none _), fun _ released hfailure hreleased => ?_⟩
    obtain rfl := Option.some.inj hfailure
    obtain rfl := Except.ok.inj hreleased
    exact ⟨t₁, hclone.bind (.pure _ _), hkeeps, hstore'⟩
  | ok fresh =>
    have hleaf := hfresh fresh rfl
    have hparent : (setParent (.node fresh) parent : Rewiring α Unit).Leads { d with store := t₁ } ()
        { d with store := t₁.relink (Overlay.none.touch fresh (Links.withParent parent)) } := by
      obtain ⟨node, hnode⟩ := hleaf.lines.exists_read List.mem_cons_self
      exact leads_rewrite hnode
    have hstore'' : (t₁.relink (Overlay.none.touch fresh (Links.withParent parent))).map Prod.snd = s'.store := by
      rw [Store.map_snd_relink, hstore']
    obtain ⟨s₂, hbelow, hsprouts, hstore₂⟩ := hspine (d := d) hsource hlimit hleaf.reparent_leaf hstore'' hr
    have htop := Shape.slot?_copyBelow hr
    constructor
    · intro hdone
      rw [hdone] at hbelow
      exact ⟨fresh, s₂, htop, hclone.bind (hparent.bind (hbelow.bind (.pure _ _))), hsprouts, hstore₂⟩
    · intro failure released hfailure hreleased
      rw [hfailure] at hbelow
      have hheight := Nat.le_trans (Shape.height_copyBelow slot hr) hlimit
      rw [← hstore₂] at hreleased
      obtain ⟨s₃, hdestroy, hkept, hstore₃⟩ := leads_destroy (d := d) hsprouts htop hheight hreleased
      exact ⟨s₃, hclone.bind (hparent.bind (hbelow.bind (hdestroy.bind (.pure _ _)))), hkept, hstore₃⟩

theorem leads_copyRight {rr : Partial ε α} (hspine : CopiesBelow source make limit spine)
    (hsource : source.Lines sp right) (hlimit : right.height ≤ limit) (h : s₀.Sprouts s₁ parent (.leaf color top))
    (hstore : s₁.map Prod.snd = s.store) (hrr : right.copy (source.map Prod.snd) make s = .ok rr) :
    (rr.failure = none → ∃ s₂, (copyRight source make spine limit (.ofChild right.slot?) top s.given).Leads
        { d with store := s₁ } (none, rr.state.given) { d with store := s₂ } ∧
      s₀.Sprouts s₂ parent (.node color .nil top rr.shape) ∧ s₂.map Prod.snd = rr.state.store) ∧
    ∀ failure released, rr.failure = some failure → rr.shape.releaseAll rr.state.store = .ok released →
      ∃ s₂, (copyRight source make spine limit (.ofChild right.slot?) top s.given).Leads { d with store := s₁ }
          (some failure, rr.state.given) { d with store := s₂ } ∧
        s₀.Sprouts s₂ parent (.leaf color top) ∧ s₂.map Prod.snd = released := by
  cases right with
  | nil =>
    obtain rfl := Except.ok.inj hrr
    exact ⟨fun _ => ⟨s₁, .ite_pos rfl (.pure _ _), h, hstore⟩, nofun⟩
  | node c l x r =>
    obtain ⟨hdone, hfailed⟩ := leads_copySubtree (d := d) hspine (.node top) hsource hlimit hstore hrr
    constructor
    · intro hnone
      obtain ⟨copied, s₂, hcopied, hcopy, hsprouts, hstore₂⟩ := hdone hnone
      obtain ⟨node, hnode⟩ := h.lines.exists_read (List.mem_cons_self : top ∈ _)
      have hlink : (setChild .right (.node top) (.node copied) : Rewiring α Unit).Leads { d with store := s₂ } ()
          { d with store := s₂.relink (Overlay.none.touch top (Links.withChild .right (.node copied))) } :=
        leads_rewrite (hsprouts.keeps _ _ hnode)
      refine ⟨_, .ite_neg Handle.node_ne_nil (hcopy.bind (hlink.bind (.pure _ _))), ?_, ?_⟩
      · have hnear : Handle.node copied = .ofChild rr.shape.slot? := by rw [hcopied]; rfl
        rw [hnear]
        exact Store.Sprouts.join .right h (hsprouts.touch _ ⟨node, hnode⟩)
      · rw [Store.map_snd_relink, hstore₂]
    · intro failure released hfailure hreleased
      obtain ⟨s₂, hcopy, hkeeps, hstore₂⟩ := hfailed failure released hfailure hreleased
      exact ⟨s₂, .ite_neg Handle.node_ne_nil (hcopy.bind (.pure _ _)), h.trans hkeeps, hstore₂⟩

theorem leads_copyLeft {l : Partial ε α} (hspine : CopiesBelow source make limit spine) (hsource : source.Lines sp left)
    (hlimit : left.height ≤ limit) (h : s₀.Sprouts s₁ parent (.node color .nil top right))
    (hstore : s₁.map Prod.snd = s.store) (hl : left.copy (source.map Prod.snd) make s = .ok l) :
    ∃ s₂, (copyLeft source make spine (.ofChild left.slot?) top s.given).Leads { d with store := s₁ }
        (l.failure, l.state.given) { d with store := s₂ } ∧
      s₀.Sprouts s₂ parent (.node color l.shape top right) ∧ s₂.map Prod.snd = l.state.store := by
  cases left with
  | nil =>
    obtain rfl := Except.ok.inj hl
    exact ⟨s₁, .ite_pos rfl (.pure _ _), h, hstore⟩
  | node c below x beyond =>
    rw [Shape.copy_node] at hl
    obtain ⟨⟨answer, s'⟩, hitem, hl⟩ := bind_eq_ok.mp hl
    obtain ⟨item, hread⟩ := hsource ⟨x, c, sp, .ofChild below.slot?, .ofChild beyond.slot?⟩ (by simp [Shape.links])
    obtain ⟨t₁, hclone, hstore', hkeeps, hfresh⟩ := leads_cloneNode (d := d) hread hstore hitem
    cases answer with
    | error failure =>
      obtain rfl := Except.ok.inj hl
      exact ⟨t₁, .ite_neg Handle.node_ne_nil (hclone.bind (.pure _ _)), h.trans hkeeps, hstore'⟩
    | ok y =>
      have hleaf := hfresh y rfl
      have htop : top ∈ (Shape.node color .nil top right).slots := by simp [Shape.slots]
      obtain ⟨node, hnode⟩ := h.lines.exists_read htop
      let t₂ := t₁.relink (Overlay.none.touch top (Links.withChild .left (.node y)))
      have hlink : (setChild .left (.node top) (.node y) : Rewiring α Unit).Leads { d with store := t₁ } ()
          { d with store := t₂ } := leads_rewrite (hkeeps _ _ hnode)
      have hleaf₂ := hleaf.touch (Links.withChild .left (.node y)) ⟨node, hnode⟩
      have hparent : (setParent (.node y) (.node top) : Rewiring α Unit).Leads { d with store := t₂ } ()
          { d with store := t₂.relink (Overlay.none.touch y (Links.withParent (.node top))) } := by
        obtain ⟨new, hnew⟩ := hleaf₂.lines.exists_read List.mem_cons_self
        exact leads_rewrite hnew
      have hstore₂ : (t₂.relink (Overlay.none.touch y (Links.withParent (.node top)))).map Prod.snd = s'.store := by
        rw [Store.map_snd_relink, Store.map_snd_relink, hstore']
      obtain ⟨s₂, hbelow, hsprouts, hstore₃⟩ := hspine (d := d) hsource hlimit hleaf₂.reparent_leaf hstore₂ hl
      refine ⟨s₂, .ite_neg Handle.node_ne_nil (hclone.bind (hlink.bind (hparent.bind hbelow))), ?_, hstore₃⟩
      have hnear : Handle.node y = .ofChild l.shape.slot? := by rw [Shape.slot?_copyBelow hl]; rfl
      rw [hnear] at hsprouts
      exact Store.Sprouts.join .left h hsprouts

/-- The loop down the left spine copies everything below a node, as far as the
    copy of the shape goes. -/
theorem copiesBelow_copySpine (source : Store (Links × α)) (make : Nat → α → Except ε α) (limit : Nat) :
    CopiesBelow source make limit (copySpine source make limit) := by
  induction limit with
  | zero =>
    intro d s₀ s₁ sp parent color left right slot top s r _ hlimit
    cases hlimit
  | succ limit ih =>
    intro d s₀ s₁ sp parent color left right slot top s r hsource hlimit h hstore hr
    simp only [Shape.height] at hlimit
    obtain ⟨⟨item, hread⟩, hleft, hright⟩ := Store.lines_node.mp hsource
    have hnode : (source.node (.node slot) : Except Fault _) = _ := hread
    have hheightr : right.height ≤ limit := by omega
    have hheightl : left.height ≤ limit := by omega
    obtain ⟨rr, hrr, ⟨failure, released, hfailure, hreleased, rfl⟩ | ⟨hnone, l, hl, rfl⟩⟩ := Shape.copyBelow_cases hr
    · obtain ⟨_, hfailed⟩ := leads_copyRight (d := d) ih hright hheightr h hstore hrr
      obtain ⟨s₂, hcopy, hsprouts, hstore₂⟩ := hfailed failure released hfailure hreleased
      exact ⟨s₂, (leads_lift hnode _).bind (hcopy.bind (.pure _ _)), hsprouts, hstore₂⟩
    · obtain ⟨hdone, _⟩ := leads_copyRight (d := d) ih hright hheightr h hstore hrr
      obtain ⟨s₂, hcopy, hsprouts, hstore₂⟩ := hdone hnone
      obtain ⟨s₃, hcopy', hsprouts', hstore₃⟩ := leads_copyLeft (d := d) ih hleft hheightl hsprouts hstore₂ hl
      exact ⟨s₃, (leads_lift hnode _).bind (hcopy.bind ((leads_lift hnode _).bind hcopy')), hsprouts', hstore₃⟩

end Rewiring

namespace Rewiring

variable {α κ ε : Type} {key : α → κ} {g : Wired α} {t : Tree key} {entries : List (Slot × α)} {o : Outside α}
  {make : Nat → α → Except ε α} {store s₂ : Store (Links × α)} {tag : UInt64} {replica : Replica key ε} {shape : Shape}
  {top : Slot} {limit : Nat}

theorem leads_adopt (h : store.Sprouts s₂ .header shape) (htop : shape.slot? = some top) (hlimit : shape.height ≤ limit)
    (size : Nat) : (adopt limit (.node top) size).Leads { Wired.empty store with store := s₂ } ()
      { root := .node top, leftmost := .ofEnd (shape.extreme .left), rightmost := .ofEnd (shape.extreme .right), size,
        store := s₂ } := by
  have hne : shape ≠ .nil := by
    rintro rfl
    cases htop
  have hend (side : Side) {d : Wired α} (hd : d.Holds shape) :
      (outermost side limit (.node top)).Leads d (.ofEnd (shape.extreme side)) d := by
    have hreads := (takes_outermost (α := α) [] side hne hlimit).reads hd h.nodup
    obtain ⟨slot, hslot⟩ := Shape.exists_extreme side hne
    rw [htop, hslot] at hreads
    rw [hslot]
    exact hreads
  have hroot : Handle.node top = .ofChild shape.slot? := by rw [htop]; rfl
  have hholds (d : Wired α) (hd : d.root = .node top) (hstore : d.store = s₂) : d.Holds shape :=
    ⟨hd.trans hroot, hstore ▸ h.lines⟩
  let d₁ : Wired α := { Wired.empty store with root := .node top, store := s₂ }
  let d₂ : Wired α := { d₁ with leftmost := .ofEnd (shape.extreme .left) }
  have hsetRoot : (setRoot (.node top)).Leads { Wired.empty store with store := s₂ } () d₁ := rfl
  have hsetLeftmost : (setLeftmost (.ofEnd (shape.extreme .left))).Leads d₁ () d₂ := rfl
  refine hsetRoot.bind ((hend .left (hholds d₁ rfl rfl)).bind (hsetLeftmost.bind ?_))
  exact (hend .right (hholds d₂ rfl rfl)).bind rfl

/-- A tree is copied link by link into one without nodes: the copy carries the
    copy of the tree, or the store has back whatever was copied. -/
theorem leads_copyTree (hg : g.Carries t) (h : t.Represents entries o)
    (hrun : t.copyWith make (store.map Prod.snd) tag = .ok replica) :
    (∀ copy, replica.result = .ok copy →
      ∃ d, (copyTree g make).Leads (.empty store) (.ok (), replica.given.reverse) d ∧ d.Carries copy) ∧
    ∀ failure rest, replica.result = .error (failure, rest) →
      ∃ s₂, (copyTree g make).Leads (.empty store) (.error failure, replica.given.reverse)
        { Wired.empty store with store := s₂ } ∧ s₂.map Prod.snd = rest := by
  obtain ⟨r, hcopy, hrun⟩ := bind_eq_ok.mp hrun
  have hlimit : t.shape.height ≤ g.size + 1 := by
    have hle := Shape.height_le_size t.shape
    rw [← Shape.length_slots, h.slots, List.length_map, ← h.size, ← hg.size] at hle
    omega
  rw [← hg.store] at hcopy
  rw [copyTree, hg.links.root]
  cases hshape : t.shape with
  | nil =>
    rw [hshape] at hcopy
    obtain rfl := Except.ok.inj hcopy
    obtain rfl := Except.ok.inj hrun
    refine ⟨?_, nofun⟩
    intro copy hresult
    obtain rfl := Except.ok.inj hresult
    have hsize : 0 = t.size := by
      have hslots := h.slots
      rw [hshape] at hslots
      rw [h.size, ← List.length_map Prod.fst, ← hslots]
      rfl
    exact ⟨_, .ite_pos rfl (.pure _ _), ⟨rfl, nofun⟩, rfl, rfl, hsize, rfl⟩
  | node color left slot right =>
    rw [hshape] at hcopy hlimit
    have hsource : g.store.Lines .header (.node color left slot right) := by
      have hlines := hg.links.lines
      rwa [hshape] at hlines
    obtain ⟨hdone, hfailed⟩ := leads_copySubtree (d := Wired.empty store)
      (copiesBelow_copySpine g.store make (g.size + 1)) .header hsource hlimit rfl hcopy
    cases hfailure : r.failure with
    | some failure =>
      simp only [hfailure] at hrun
      obtain ⟨released, hreleased, hrun⟩ := bind_eq_ok.mp hrun
      obtain rfl := Except.ok.inj hrun
      refine ⟨nofun, ?_⟩
      intro _ _ hresult
      obtain ⟨rfl, rfl⟩ := Prod.mk.inj (Except.error.inj hresult)
      obtain ⟨s₂, hleads, _, hstore⟩ := hfailed failure released hfailure hreleased
      refine ⟨s₂, .ite_neg Handle.node_ne_nil (hleads.bind ?_), hstore⟩
      rw [List.reverse_reverse]
      exact .pure _ _
    | none =>
      simp only [hfailure] at hrun
      obtain rfl := Except.ok.inj hrun
      refine ⟨?_, nofun⟩
      intro copy hresult
      obtain rfl := Except.ok.inj hresult
      obtain ⟨top, s₂, htop, hleads, hsprouts, hstore⟩ := hdone hfailure
      have hadopt := leads_adopt hsprouts htop (Nat.le_trans (Shape.height_copy hcopy) hlimit) g.size
      let d : Wired α :=
        { root := .node top, leftmost := .ofEnd (r.shape.extreme .left), rightmost := .ofEnd (r.shape.extreme .right),
          size := g.size, store := s₂ }
      have hroot : d.root = .ofChild r.shape.slot? := by rw [htop]; rfl
      refine ⟨d, .ite_neg Handle.node_ne_nil (hleads.bind (hadopt.bind ?_)), ⟨hroot, hsprouts.lines⟩, rfl, rfl, hg.size,
        hstore⟩
      rw [List.reverse_reverse]
      exact .pure _ _

end Rewiring

end RedBlack
