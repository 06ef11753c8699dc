import RedBlack.Proofs.Sorted.Map
import RedBlack.Proofs.Sorted.Set
import RedBlack.Proofs.Wired.Forest

namespace RedBlack

namespace Tree

open RedBlack.Action

variable {α κ ρ υ σ β : Type} {key : α → κ} {t u : Tree key} {entries : List (Slot × α)} {o : Outside α}

/-- The item at a position is changed in its slot; the end has none, and a
    position of another tree stops it. -/
theorem Represents.relinkedBy_modify (h : t.Represents entries o) (p : Position) (change : α → α) :
    t.RelinkedBy (Tree.modify p change) := by
  refine .step fun _ u hrun => ?_
  obtain ⟨slot, _, hrun⟩ := bind_eq_ok.mp hrun
  cases slot with
  | none =>
    obtain ⟨_, rfl⟩ := Prod.mk.inj (Except.ok.inj hrun)
    exact .refl t
  | some slot =>
    obtain ⟨item, hitem, hrun⟩ := bind_eq_ok.mp hrun
    obtain ⟨store, hstore, hu⟩ := bind_eq_ok.mp hrun
    obtain ⟨_, rfl⟩ := Prod.mk.inj (Except.ok.inj hu)
    exact h.relinksTo (m := .replace slot (change item)) ⟨item, hitem⟩ (by rw [Move.act, hstore]; rfl)

theorem relinkedBy_demand (answer : Except AllocError ρ) : t.RelinkedBy (Tree.demand answer) := by
  cases answer with
  | ok answer => exact .pure answer
  | error _ => exact .fail _

/-- An insertion whose refusal stops the operation is done like any other. -/
theorem RelinkedBy.demand {a : Op key (Except AllocError ρ)} {f : ρ → υ} (h : t.RelinkedBy a) :
    t.RelinkedBy (do return f (← Tree.demand (← a))) :=
  h.bind fun answer _ => (relinkedBy_demand answer).bind fun _ _ => .pure _

section State

variable {tree : σ → Tree key} {s : σ}

/-- However an operation on something with a tree ends, it has made only writes
    to that which can be done to the links as well. -/
def Relinks (tree : σ → Tree key) (a : Action σ κ ρ) (s : σ) : Prop :=
  (tree s).RelinksTo (tree (a.run s).state)

theorem Relinks.map {a : Action σ κ ρ} (h : Relinks tree a s) (f : ρ → υ) : Relinks tree (f <$> a) s := by
  rw [Relinks, (run_map a f).1]
  exact h

theorem relinks_ask (question : σ → Query κ ρ) : Relinks tree (ask question) s := by
  have hstate : ((ask question).run s).state = s := by
    rw [Action.run, ask]
    split <;> rfl
  rw [Relinks, hstate]
  exact .refl _

theorem relinks_look (view : σ → Except Fault ρ) : Relinks tree (look view : Action σ κ ρ) s :=
  .refl _

theorem RelinkedBy.within {op : Op key ρ} (h : (tree s).RelinkedBy op) {put : Tree key → σ → σ}
    (hput : ∀ t s, tree (put t s) = t) : Relinks tree (op.within tree put) s := by
  rw [Relinks, Action.run, Action.within, hput]
  exact h

/-- A step that keeps every tree may be taken once for each item of a list. -/
theorem Represents.relinks_forM {step : β → Action σ κ Unit} (h : (tree s).Represents entries o)
    (hstep : ∀ b n left, (tree n).Represents left o → Keeps tree o (step b) n ∧ Relinks tree (step b) n)
    (items : List β) : Relinks tree (items.forM step) s := by
  induction items generalizing s entries with
  | nil => exact .refl _
  | cons b rest ih =>
    obtain ⟨hkeeps, hfirst⟩ := hstep b s entries h
    obtain ⟨_, left, hleft⟩ := hkeeps.state
    change Relinks tree (step b >>= fun _ => rest.forM step) s
    cases hanswer : ((step b).run s).answer with
    | error fault =>
      rw [Relinks, (run_bind_error hanswer _).1]
      exact hfirst
    | ok value =>
      rw [Relinks, (run_bind_ok hanswer _).1]
      exact hfirst.trans (ih hleft)

end State

theorem HasLinks.clone {copy : Tree key} {store : Store α} {tag : UInt64} (ht : t.HasLinks) (h : t.Represents entries o)
    (hrun : t.clone store tag = .ok copy) : copy.HasLinks := by
  obtain ⟨replica, hreplica, hcopy⟩ := bind_eq_ok.mp hrun
  cases hresult : replica.result with
  | error failure =>
    rw [hresult] at hcopy
    cases hcopy
  | ok found =>
    rw [hresult] at hcopy
    obtain rfl := Except.ok.inj hcopy
    exact ht.copyWith h hreplica hresult

end Tree

namespace SortedMap

open RedBlack.Tree

variable {κ ν ρ : Type} {m : SortedMap κ ν} {entries : List (Slot × (κ × ν))} {o : Outside (κ × ν)}

theorem relinks_onTree {op : Tree.Op (Prod.fst : κ × ν → κ) ρ} (h : m.tree.RelinkedBy op) :
    Relinks SortedMap.tree (onTree op) m :=
  h.within fun _ _ => rfl

theorem relinks_insert (h : m.tree.Represents entries o) (k : κ) (v : ν) : Relinks SortedMap.tree (insert k v) m := by
  refine relinks_onTree (.ask_bind fun hint => .look_bind fun entry => .ask_bind fun found => ?_)
  cases found with
  | some bound => exact (h.relinkedBy_modify hint _).bind fun _ _ => .pure _
  | none => exact RelinkedBy.demand (.look_bind fun _ => h.relinkedBy_insertUniqueBy _ (k, v))

/-- Every request to a map is done link by link, also where it stops: it is made
    up of operations on its tree. -/
theorem Command.relinks (h : m.tree.Represents entries o) (c : Command κ ν) : Relinks SortedMap.tree c.run m := by
  cases c with
  | insert k v => exact (relinks_insert h k v).map _
  | tryInsert k v => exact (relinks_onTree (h.relinkedBy_insertUniqueBy _ (k, v)).demand).map _
  | extend new =>
    refine h.relinks_forM (fun entry n left hleft => ?_) new
    exact ⟨(keeps_insert hleft entry.1 entry.2).map _, (relinks_insert hleft entry.1 entry.2).map _⟩
  | modify k change =>
    refine (relinks_onTree (.ask_bind fun p => .look_bind fun entry => ?_)).map _
    exact (h.relinkedBy_modify p _).bind fun _ _ => .pure _
  | remove k =>
    refine (relinks_onTree (.ask_bind fun p => ?_)).map _
    split
    · exact .pure _
    · exact ((h.relinkedBy_erase p).bind fun _ _ => .pure _).bind fun _ _ => .pure _
  | popFirst => exact (relinks_onTree (h.relinkedBy_pop Tree.leftmost)).map _
  | popLast => exact (relinks_onTree (h.relinkedBy_pop Tree.rightmost)).map _
  | clear => exact relinks_onTree h.relinkedBy_clear
  | get | contains | lowerBound | upperBound | compareKeys | compareEntries => exact (relinks_ask _).map _
  | first | last | entries | walk | keys | values => exact (relinks_look _).map _

theorem Reachable.hasLinks {less : κ → κ → Bool} (h : m.Reachable less) : m.tree.HasLinks := by
  induction h with
  | empty => exact hasLinks_empty Prod.fst less (.arena .empty) 0
  | @step m c hm ih =>
    obtain ⟨_, entries, hrep⟩ := hm.represents
    exact (c.relinks hrep).hasLinks ih
  | clone hm hclone ih =>
    obtain ⟨_, entries, hrep⟩ := hm.represents
    obtain ⟨copy, hcopy, hn⟩ := bind_eq_ok.mp hclone
    obtain rfl := Except.ok.inj hn
    exact ih.clone hrep hcopy

end SortedMap

namespace SortedSet

open RedBlack.Tree

variable {κ ρ : Type} {s : SortedSet κ} {entries : List (Slot × κ)} {o : Outside κ}

theorem relinks_onTree {op : Tree.Op (id : κ → κ) ρ} (h : s.tree.RelinkedBy op) :
    Relinks SortedSet.tree (onTree op) s :=
  h.within fun _ _ => rfl

theorem relinks_insert (h : s.tree.Represents entries o) (x : κ) : Relinks SortedSet.tree (insert x) s :=
  relinks_onTree (h.relinkedBy_insertUniqueBy _ x).demand

theorem relinks_take (h : s.tree.Represents entries o) (x : κ) : Relinks SortedSet.tree (take x) s := by
  refine relinks_onTree (.ask_bind fun p => ?_)
  split
  · exact .pure _
  · exact ((h.relinkedBy_erase p).bind fun _ _ => .pure _).bind fun _ _ => .pure _

/-- Every request to a set is done link by link, also where it stops. -/
theorem Command.relinks (h : s.tree.Represents entries o) (c : Command κ) : Relinks SortedSet.tree c.run s := by
  cases c with
  | insert x => exact (relinks_insert h x).map _
  | extend new =>
    refine h.relinks_forM (fun x n left hleft => ?_) new
    exact ⟨(keeps_insert hleft x).map _, (relinks_insert hleft x).map _⟩
  | take x => exact (relinks_take h x).map _
  | remove x => exact ((relinks_take h x).map _).map _
  | popFirst => exact (relinks_onTree (h.relinkedBy_pop Tree.leftmost)).map _
  | popLast => exact (relinks_onTree (h.relinkedBy_pop Tree.rightmost)).map _
  | clear => exact relinks_onTree h.relinkedBy_clear
  | get | contains | lowerBound | upperBound | compareKeys => exact (relinks_ask _).map _
  | first | last | items | walk => exact (relinks_look _).map _

theorem Reachable.hasLinks {less : κ → κ → Bool} (h : s.Reachable less) : s.tree.HasLinks := by
  induction h with
  | empty => exact hasLinks_empty id less (.arena .empty) 0
  | @step s c hs ih =>
    obtain ⟨_, entries, hrep⟩ := hs.represents
    exact (c.relinks hrep).hasLinks ih
  | clone hs hclone ih =>
    obtain ⟨_, entries, hrep⟩ := hs.represents
    obtain ⟨copy, hcopy, hn⟩ := bind_eq_ok.mp hclone
    obtain rfl := Except.ok.inj hn
    exact ih.clone hrep hcopy

end SortedSet

end RedBlack
