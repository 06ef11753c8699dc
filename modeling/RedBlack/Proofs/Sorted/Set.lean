import RedBlack.Proofs.Tree.Replica
import RedBlack.Proofs.Tree.Safety
import RedBlack.Sorted.Set

namespace RedBlack

namespace SortedSet

open RedBlack.Action RedBlack.Tree

variable {κ ρ : Type} {s : SortedSet κ} {entries : List (Slot × κ)} {o : Outside κ}

theorem wp_onTree (op : Tree.Op (id : κ → κ) ρ) {done : ρ → SortedSet κ → Prop}
    {stopped : Fault → SortedSet κ → Prop} :
    (onTree op).wp done stopped s ↔
      op.wp (fun value t => done value { tree := t }) (fun fault t => stopped fault { tree := t }) s.tree :=
  wp_within ..

theorem take_spec (h : s.tree.Represents entries o) (x : κ) :
    (take x).Yields s fun answer u => ∃ before after : List (Slot × κ), entries = before ++ after ∧
      Points (Bound.lower.side s.tree.less x) id before after ∧ u.tree.Continues s.tree ∧
      answer = (s.tree.hit x after).map Prod.snd ∧
      u.tree.Represents (if (s.tree.hit x after).isSome then before ++ after.tail else entries) o := by
  obtain ⟨before, after, rfl, hfind, hpoints⟩ := h.find x
  rw [take, Yields, wp_onTree, wp_bind, wp_ask_ok (s := s.tree) hfind]
  cases hhit : s.tree.hit x after with
  | none => exact ⟨before, after, rfl, hpoints, .refl _, by rw [hhit]; rfl, by rw [hhit]; exact h⟩
  | some e =>
    obtain ⟨rest, rfl, _⟩ := hit_eq_some_iff.mp hhit
    simp only [Option.map_some, Position.isEnd, Tree.position, Option.isNone_some, Bool.false_eq_true, if_false,
      wp_bind]
    refine (h.remove rfl rfl).mono ?_
    rintro _ u ⟨rfl, hu, hrep⟩
    exact ⟨before, e :: rest, rfl, hpoints, hu, by rw [hhit]; rfl, by rw [hhit]; exact hrep⟩

/-- A request to a set. -/
inductive Command (κ : Type) where
  | insert (x : κ)
  | extend (new : List κ)
  | take (x : κ)
  | remove (x : κ)
  | popFirst
  | popLast
  | clear
  | contains (x : κ)
  | get (x : κ)
  | lowerBound (x : κ)
  | upperBound (x : κ)
  | first
  | last
  | compareKeys (a b : κ)
  | items
  | walk (script : List Side)

/-- What a set does on a request, the answer aside. -/
def Command.run : Command κ → Op κ Unit
  | insert x => (fun _ => ()) <$> SortedSet.insert x
  | extend new => SortedSet.extend new
  | take x => (fun _ => ()) <$> SortedSet.take x
  | remove x => (fun _ => ()) <$> SortedSet.remove x
  | popFirst => (fun _ => ()) <$> SortedSet.popFirst
  | popLast => (fun _ => ()) <$> SortedSet.popLast
  | clear => SortedSet.clear
  | contains x => (fun _ => ()) <$> .ask fun s => s.contains x
  | get x => (fun _ => ()) <$> .ask fun s => s.get x
  | lowerBound x => (fun _ => ()) <$> .ask fun s => s.lowerBound x
  | upperBound x => (fun _ => ()) <$> .ask fun s => s.upperBound x
  | first => (fun _ => ()) <$> .look fun s => s.first?
  | last => (fun _ => ()) <$> .look fun s => s.last?
  | compareKeys a b => (fun _ => ()) <$> .ask fun s => s.compareKeys a b
  | .items => (fun _ => ()) <$> .look fun s => s.items
  | walk script => (fun _ => ()) <$> .look fun s => s.walk.follow script

/-- The sets that requests and copies lead to, from the one without items. -/
inductive Reachable (less : κ → κ → Bool) : SortedSet κ → Prop where
  | empty : Reachable less (.empty less)
  | step {s : SortedSet κ} {c : Command κ} : Reachable less s → Reachable less (c.run.run s).state
  | clone {s u : SortedSet κ} : Reachable less s → s.clone = .ok u → Reachable less u

theorem keeps_onTree {op : Tree.Op (id : κ → κ) ρ} (h : Keeps (fun t => t) o op s.tree) :
    Keeps SortedSet.tree o (onTree op) s :=
  h.within fun _ _ => rfl

theorem keeps_insert (h : s.tree.Represents entries o) (x : κ) : Keeps SortedSet.tree o (insert x) s :=
  keeps_onTree (h.keeps_insertUnique x)

theorem keeps_take (h : s.tree.Represents entries o) (x : κ) : Keeps SortedSet.tree o (take x) s := by
  refine (take_spec h x).mono ?_
  rintro _ u ⟨_, _, _, _, hu, _, hrep⟩
  exact ⟨hu, _, hrep⟩

/-- Every request keeps a set, whatever its comparator is, and stops only for
    want of a slot. -/
theorem Command.keeps (h : s.tree.Represents entries o) (c : Command κ) : Keeps SortedSet.tree o c.run s := by
  cases c with
  | insert x => exact (keeps_insert h x).map _
  | extend new =>
    apply h.keeps_forM
    exact fun x n left hleft => (keeps_insert hleft x).map _
  | take x => exact (keeps_take h x).map _
  | remove x => exact ((keeps_take h x).map _).map _
  | popFirst => exact (keeps_onTree h.keeps_popFirst).map _
  | popLast => exact (keeps_onTree h.keeps_popLast).map _
  | clear => exact keeps_onTree h.keeps_clear
  | contains x =>
    obtain ⟨_, _, _, hanswer, _⟩ := h.contains x
    have hcontains : (s.contains x).answer = .ok _ := hanswer
    exact (h.keeps_ask hcontains).map _
  | get x =>
    obtain ⟨before, after, rfl, hfind, _⟩ := h.find x
    have hanswer : (s.get x).answer = .ok ((s.tree.hit x after).map Prod.snd) := by
      simp [SortedSet.get, hfind, h.get_hit]
    exact (h.keeps_ask hanswer).map _
  | lowerBound x =>
    obtain ⟨before, after, rfl, hbound, _⟩ := h.lowerBound x
    have hanswer : (s.lowerBound x).answer = .ok (after.head?.map Prod.snd) := by
      simp [SortedSet.lowerBound, hbound, h.get]
    exact (h.keeps_ask hanswer).map _
  | upperBound x =>
    obtain ⟨before, after, rfl, hbound, _⟩ := h.upperBound x
    have hanswer : (s.upperBound x).answer = .ok (after.head?.map Prod.snd) := by
      simp [SortedSet.upperBound, hbound, h.get]
    exact (h.keeps_ask hanswer).map _
  | first => exact (h.keeps_look h.first?).map _
  | last => exact (h.keeps_look h.last?).map _
  | compareKeys a b => exact (h.keeps_ask rfl).map _
  | items => exact (h.keeps_look h.items).map _
  | walk script =>
    obtain ⟨result, hresult⟩ := h.walk.follow script
    exact (h.keeps_look hresult).map _

theorem Reachable.represents {less : κ → κ → Bool} (h : s.Reachable less) :
    s.tree.less = less ∧ ∃ entries, s.tree.Represents entries .idle := by
  induction h with
  | empty => exact ⟨rfl, [], represents_empty Store.holds_empty⟩
  | @step s c _ ih =>
    obtain ⟨hless, entries, hrep⟩ := ih
    obtain ⟨hu, hleft⟩ := (c.keeps hrep).state
    exact ⟨hu.less.trans hless, hleft⟩
  | clone _ hclone ih =>
    obtain ⟨hless, entries, hrep⟩ := ih
    obtain ⟨copy, new, hrun, hcopy, hcopyLess, _⟩ := hrep.clone 0
    rw [SortedSet.clone, hrun] at hclone
    obtain rfl := Except.ok.inj hclone
    exact ⟨hcopyLess.trans hless, new, hcopy⟩

/-- What users of a set may rely on under any comparator: nothing stops, but a
    request for an item that finds the arena full. -/
structure StopsOnlyFull (s : SortedSet κ) : Prop where
  request : ∀ (c : Command κ) fault, (c.run.run s).answer = .error fault →
    fault = .allocationFailed ∧ ¬ (c.run.run s).state.tree.store.base.HasRoom
  clone : ∃ u, s.clone = .ok u
  drain : ∀ script, ∃ items store, ((Drain.follow script).run s.drain).answer = .ok items ∧
    ((Drain.follow script).run s.drain).state.tree.dispose = .ok store
  dispose : ∃ store, s.tree.dispose = .ok store
  form : ∀ item tall, ∃ text, s.form item tall = .ok text
  sameItems : ∀ [DecidableEq κ] (u : SortedSet κ) (less : κ → κ → Bool), u.Reachable less →
    ∃ answer, s.sameItems u = .ok answer

theorem Reachable.stopsOnlyFull {less : κ → κ → Bool} (h : s.Reachable less) : s.StopsOnlyFull := by
  obtain ⟨_, entries, hrep⟩ := h.represents
  constructor
  · exact fun c fault hfault => (c.keeps hrep).full rfl hfault
  · obtain ⟨copy, _, hrun, _⟩ := hrep.clone 0
    exact ⟨{ tree := copy }, by rw [SortedSet.clone, hrun]; rfl⟩
  · intro script
    obtain ⟨items, store, hanswer, hdispose, _⟩ := hrep.drain script
    exact ⟨items, store, hanswer, hdispose⟩
  · obtain ⟨store, hdispose, _⟩ := hrep.dispose
    exact ⟨store, hdispose⟩
  · exact fun item tall => hrep.form _ _ tall
  · intro _ u less' hu
    obtain ⟨_, other, hother⟩ := hu.represents
    exact hrep.sameItems hother

end SortedSet

end RedBlack
